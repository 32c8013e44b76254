import Mathlib.Data.List.Basic

/-!
# Files of records

Values that are all written with the same number of bytes, one after the other.  Cutting and reading
such a file at multiples of that number is taking and looking up values of the list.
-/

namespace Aegisum

/-- A format that writes every value with the same number of bytes. -/
structure RecordFormat (D : Type) where
  size : ℕ
  encode : D → List UInt8
  decode : List UInt8 → D
  size_pos : 0 < size
  length_encode : ∀ d, (encode d).length = size
  decode_encode : ∀ d, decode (encode d) = d

namespace RecordFormat

variable {D : Type} (f : RecordFormat D)

/-- The bytes of all values. -/
def file (l : List D) : List UInt8 := l.flatMap f.encode

@[simp] lemma file_nil : f.file [] = [] := rfl

lemma file_cons (d : D) (l : List D) : f.file (d :: l) = f.encode d ++ f.file l := rfl

lemma file_append (l l' : List D) : f.file (l ++ l') = f.file l ++ f.file l' := List.flatMap_append

lemma file_singleton (d : D) : f.file [d] = f.encode d := by simp [file]

/-- Every record has the same size. -/
@[simp] lemma length_file (l : List D) : (f.file l).length = l.length * f.size := by
  induction l with
  | nil => simp
  | cons d l ih =>
    rw [file_cons, List.length_append, ih, f.length_encode, List.length_cons, Nat.succ_mul,
      Nat.add_comm]

lemma length_file_div (l : List D) : (f.file l).length / f.size = l.length := by
  rw [length_file, Nat.mul_div_cancel _ f.size_pos]

/-- The file is cut where the records are. -/
lemma split_file (l : List D) (n : ℕ) : (f.file l).take (n * f.size) = f.file (l.take n) ∧
    (f.file l).drop (n * f.size) = f.file (l.drop n) := by
  induction n generalizing l with
  | zero => simp
  | succ n ih =>
    cases l with
    | nil => simp
    | cons d l =>
      have hsize : (n + 1) * f.size = (f.encode d).length + n * f.size := by
        rw [f.length_encode, Nat.succ_mul, Nat.add_comm]
      obtain ⟨htake, hdrop⟩ := ih l
      rw [file_cons, hsize]
      constructor
      · rw [List.take_length_add_append, htake, List.take_succ_cons, file_cons]
      · rw [← List.drop_drop, List.drop_left, hdrop, List.drop_succ_cons]

/-- The bytes at the place of a value. -/
lemma slice_file {l : List D} {i : ℕ} {d : D} (hd : l[i]? = some d) :
    ((f.file l).drop (i * f.size)).take f.size = f.encode d := by
  obtain ⟨hlt, rfl⟩ := List.getElem?_eq_some_iff.mp hd
  rw [(f.split_file l i).2, List.drop_eq_getElem_cons hlt, file_cons]
  exact List.take_left' (f.length_encode _)

/-- The file determines its records. -/
lemma file_injective : Function.Injective f.file := by
  intro l l' heq
  have hlength : l.length = l'.length := by rw [← f.length_file_div, heq, f.length_file_div]
  refine List.ext_getElem hlength fun i hi hi' => ?_
  rw [← f.decode_encode l[i], ← f.slice_file (List.getElem?_eq_getElem hi), heq,
    f.slice_file (List.getElem?_eq_getElem hi'), f.decode_encode]

end RecordFormat

end Aegisum
