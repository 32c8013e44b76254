import Mathlib.Data.List.TakeDrop
import Aegisum.Foundations.Checked

/-!
# Append-only files

`AppendOnlyFile` keeps the content of a file, of which a tail may have been cut off, and a buffer
of what was appended since.  `Commit` writes the buffer with `File::Write`, which opens the file
with `ios::app`: the bytes go to the end of the file, wherever the write position was set, and
the file is then cut to the intended size.

The model is generic in the elements.  A file of bytes is the instance `UInt8`; a file of hashes,
read and written one hash at a time, is the instance with one hash per element.
-/

namespace Aegisum

open List

namespace Mw

/-- How an operation on a file can fail. -/
inductive FileError
  /-- An exception of the file classes. -/
  | fileException
  /-- A failed assertion. -/
  | assertionFailure
  /-- A read outside of the mapped file. -/
  | outOfBounds
deriving DecidableEq

/-- A file with a buffer.  `disk` is the content of the file, which is also what is mapped. -/
structure AppendOnlyFile (β : Type) where
  disk : List β
  fileSize : ℕ
  bufferIndex : ℕ
  buffer : List β
  fileSize_eq : fileSize = disk.length
  bufferIndex_le : bufferIndex ≤ disk.length

/-- `File::Truncate`, which is never used to make a file longer. -/
def truncateFile {β : Type} (content : List β) (size : ℕ) : List β := content.take size

/-- `File::Write` with a start index.  The stream is opened for appending, so that the start
index has no influence on where the data is written. -/
def writeFile {β : Type} (content : List β) (startIndex : ℕ) (data : List β) (truncate : Bool) :
    List β :=
  let written := if data.isEmpty then content else content ++ data
  if truncate then truncateFile written (startIndex + data.length) else written

namespace AppendOnlyFile

variable {β : Type}

/-- Open a file with the given content. -/
def load (disk : List β) : AppendOnlyFile β :=
  ⟨disk, disk.length, disk.length, [], rfl, Nat.le_refl _⟩

/-- Append to the buffer. -/
def append (f : AppendOnlyFile β) (data : List β) : AppendOnlyFile β :=
  { f with buffer := f.buffer ++ data }

/-- The size with the buffer. -/
def getSize (f : AppendOnlyFile β) : ℕ := f.bufferIndex + f.buffer.length

/-- Cut off everything from a position on. -/
def rewind (f : AppendOnlyFile β) (nextPosition : ℕ) : Except FileError (AppendOnlyFile β) :=
  if f.fileSize ≠ f.bufferIndex then .error .assertionFailure
  else if nextPosition > f.bufferIndex + f.buffer.length then .error .fileException
  else if hle : nextPosition ≤ f.bufferIndex then
    .ok { f with
      buffer := []
      bufferIndex := nextPosition
      bufferIndex_le := Nat.le_trans hle f.bufferIndex_le }
  else .ok { f with buffer := f.buffer.take (nextPosition - f.bufferIndex) }

/-- Read from the mapped file or from the buffer, depending on the first position. -/
def read (f : AppendOnlyFile β) (position numBytes : ℕ) : Except FileError (List β) :=
  if position + numBytes > f.bufferIndex + f.buffer.length then .error .fileException
  else if position < f.bufferIndex then
    if position + numBytes > f.disk.length then .error .outOfBounds
    else .ok ((f.disk.drop position).take numBytes)
  else .ok ((f.buffer.drop (position - f.bufferIndex)).take numBytes)

/-- Write the buffer to a copy of the file, and go on with the copy. -/
def commit (f : AppendOnlyFile β) : Except FileError (AppendOnlyFile β) :=
  if f.fileSize < f.bufferIndex then .error .fileException
  else if f.fileSize ≠ f.bufferIndex ∨ !f.buffer.isEmpty then
    .ok (load (writeFile f.disk f.bufferIndex f.buffer true))
  else .ok (load f.disk)

/-! ### The list behind a file -/

/-- What the file stands for. -/
def contents (f : AppendOnlyFile β) : List β := f.disk.take f.bufferIndex ++ f.buffer

lemma length_contents (f : AppendOnlyFile β) : f.contents.length = f.getSize := by
  have := f.bufferIndex_le
  simp [contents, getSize]
  omega

@[simp] lemma contents_load (disk : List β) : (load disk).contents = disk := by
  simp [contents, load]

@[simp] lemma disk_load (disk : List β) : (load disk).disk = disk := rfl

lemma contents_append (f : AppendOnlyFile β) (data : List β) :
    (f.append data).contents = f.contents ++ data := by
  simp [contents, append]

/-- Rewinding a file without a pending rewind cuts the list. -/
lemma rewind_eq (f : AppendOnlyFile β) (n : ℕ) (h : f.fileSize = f.bufferIndex) :
    (f.getSize < n ∧ f.rewind n = .error .fileException) ∨
      (n ≤ f.getSize ∧ ∃ f', f.rewind n = .ok f' ∧ f'.contents = f.contents.take n ∧
        f'.disk = f.disk) := by
  unfold rewind getSize
  rw [if_neg (not_not.mpr h)]
  by_cases hend : n > f.bufferIndex + f.buffer.length
  · exact .inl ⟨hend, if_pos hend⟩
  · refine .inr ⟨Nat.le_of_not_lt hend, ?_⟩
    rw [if_neg hend]
    have hle := f.bufferIndex_le
    by_cases hn : n ≤ f.bufferIndex
    · rw [dif_pos hn]
      refine ⟨_, rfl, ?_, rfl⟩
      have hlen : n ≤ (f.disk.take f.bufferIndex).length := by
        rw [length_take]
        omega
      simp only [contents, append_nil]
      rw [take_append_of_le_length hlen, take_take, Nat.min_eq_left hn]
    · rw [dif_neg hn]
      refine ⟨_, rfl, ?_, rfl⟩
      have hlen : (f.disk.take f.bufferIndex).length = f.bufferIndex := by
        rw [length_take]
        omega
      simp only [contents]
      rw [take_append, hlen, take_of_length_le (i := n) (by omega)]

/-- Reading agrees with the list exactly if the read does not run from the mapped file into the
buffer, or finds the bytes of the buffer in the mapped file. -/
lemma read_eq_iff (f : AppendOnlyFile β) {position numBytes : ℕ}
    (h : position + numBytes ≤ f.getSize) :
    f.read position numBytes = .ok ((f.contents.drop position).take numBytes) ↔
      f.bufferIndex ≤ position ∨
        f.buffer.take (position + numBytes - f.bufferIndex) <+: f.disk.drop f.bufferIndex := by
  unfold getSize at h
  have hle := f.bufferIndex_le
  have hlen : (f.disk.take f.bufferIndex).length = f.bufferIndex := by
    rw [length_take]
    omega
  unfold read
  rw [if_neg (Nat.not_lt.mpr h)]
  by_cases hpos : f.bufferIndex ≤ position
  · have hdrop : f.contents.drop position = f.buffer.drop (position - f.bufferIndex) := by
      rw [contents, drop_append, hlen,
        drop_of_length_le (l := f.disk.take f.bufferIndex) (by omega), nil_append]
    rw [if_neg (Nat.not_lt.mpr hpos), hdrop]
    exact iff_of_true rfl (.inl hpos)
  · rw [if_pos (Nat.lt_of_not_le hpos)]
    have hbuffer : (f.buffer.take (position + numBytes - f.bufferIndex)).length =
        position + numBytes - f.bufferIndex := by
      rw [length_take]
      omega
    by_cases hmap : position + numBytes > f.disk.length
    · -- the mapped file ends before the read does
      rw [if_pos hmap]
      refine iff_of_false (by simp) ?_
      rintro (hbad | hpre)
      · exact hpos hbad
      · have := hpre.length_le
        rw [hbuffer, length_drop] at this
        omega
    · rw [if_neg hmap]
      have hcount : numBytes - ((f.disk.take f.bufferIndex).drop position).length =
          position + numBytes - f.bufferIndex := by
        rw [length_drop, hlen]
        omega
      have hsplit : f.disk.drop position =
          (f.disk.take f.bufferIndex).drop position ++ f.disk.drop f.bufferIndex := by
        conv_lhs => rw [← take_append_drop f.bufferIndex f.disk]
        rw [drop_append_of_le_length (by omega)]
      rw [contents, drop_append_of_le_length (by omega), hsplit, take_append,
        take_append, hcount, Except.ok.injEq, append_cancel_left_eq, or_iff_right hpos,
        prefix_iff_eq_take, hbuffer]
      exact eq_comm

/-- A single element is read from the list. -/
lemma read_one (f : AppendOnlyFile β) {position : ℕ} {x : β}
    (h : f.contents[position]? = some x) : f.read position 1 = .ok [x] := by
  obtain ⟨hlt, hx⟩ := List.getElem?_eq_some_iff.mp h
  have hsize : position + 1 ≤ f.getSize := by
    rw [← length_contents]
    exact hlt
  have hread : f.read position 1 = .ok ((f.contents.drop position).take 1) := by
    rw [f.read_eq_iff hsize]
    by_cases hpos : f.bufferIndex ≤ position
    · exact .inl hpos
    · right
      rw [show position + 1 - f.bufferIndex = 0 by omega, List.take_zero]
      exact List.nil_prefix
  rw [hread, List.drop_eq_getElem_cons hlt, hx]
  rfl

/-- Committing never fails, and leaves a file without a buffer. -/
lemma exists_commit_eq (f : AppendOnlyFile β) : ∃ disk, f.commit = .ok (load disk) := by
  have hle := f.bufferIndex_le
  have hsize := f.fileSize_eq
  unfold commit
  rw [if_neg (by omega)]
  split
  · exact ⟨_, rfl⟩
  · exact ⟨_, rfl⟩

/-- A committed file has the intended size. -/
lemma length_of_commit_eq {f : AppendOnlyFile β} {disk : List β} (h : f.commit = .ok (load disk)) :
    disk.length = f.getSize := by
  have hle := f.bufferIndex_le
  have hsize := f.fileSize_eq
  have hload : ∀ written : List β, Except.ok (ε := FileError) (load written) = .ok (load disk) →
      written = disk := fun written heq => congrArg AppendOnlyFile.disk (Except.ok.inj heq)
  unfold commit at h
  rw [if_neg (by omega)] at h
  by_cases hchanged : f.fileSize ≠ f.bufferIndex ∨ !f.buffer.isEmpty
  · rw [if_pos hchanged] at h
    rw [← hload _ h]
    by_cases hempty : f.buffer.isEmpty = true
    · simp only [writeFile, hempty, if_true, truncateFile, List.length_take, getSize]
      rw [List.isEmpty_iff] at hempty
      simp only [hempty, List.length_nil]
      omega
    · simp only [writeFile, hempty, Bool.false_eq_true, if_false, if_true, truncateFile,
        List.length_take, List.length_append, getSize]
      omega
  · rw [if_neg hchanged] at h
    rw [not_or, not_not] at hchanged
    have hbuffer : f.buffer = [] := by simpa using hchanged.2
    rw [← hload _ h, getSize, hbuffer, List.length_nil]
    omega

/-- Committing writes the list exactly if the buffer is what the file goes on with anyway. -/
lemma commit_eq_iff (f : AppendOnlyFile β) :
    f.commit = .ok (load f.contents) ↔ f.buffer <+: f.disk.drop f.bufferIndex ++ f.buffer := by
  have hle := f.bufferIndex_le
  have hsize := f.fileSize_eq
  have hload : ∀ disk disk' : List β,
      Except.ok (ε := FileError) (load disk) = .ok (load disk') ↔ disk = disk' := by
    intro disk disk'
    refine ⟨fun h => ?_, fun h => by rw [h]⟩
    exact congrArg AppendOnlyFile.disk (Except.ok.inj h)
  unfold commit
  rw [if_neg (by omega)]
  by_cases hbuffer : f.buffer = []
  · -- nothing was appended, so the file is only cut
    have hcontents : f.contents = f.disk.take f.bufferIndex := by
      rw [contents, hbuffer, append_nil]
    refine iff_of_true ?_ (by simp [hbuffer])
    split
    · rw [hload, hcontents]
      simp [writeFile, truncateFile, hbuffer]
    · rename_i hclean
      rw [hload, hcontents, take_of_length_le]
      rw [not_or, not_not] at hclean
      omega
  · rw [if_pos (.inr (by simpa using hbuffer)), hload, contents]
    have hwrite : writeFile f.disk f.bufferIndex f.buffer true =
        f.disk.take f.bufferIndex ++
          (f.disk.drop f.bufferIndex ++ f.buffer).take f.buffer.length := by
      have hempty : f.buffer.isEmpty = false := by simpa using hbuffer
      rw [writeFile, hempty]
      simp only [Bool.false_eq_true, if_false, if_true, truncateFile]
      conv_lhs => rw [← take_append_drop f.bufferIndex f.disk]
      have hlen : (f.disk.take f.bufferIndex).length = f.bufferIndex := by
        rw [length_take]
        omega
      rw [append_assoc, take_append, hlen, Nat.add_sub_cancel_left,
        take_of_length_le (i := f.bufferIndex + f.buffer.length) (by omega)]
    rw [hwrite, append_cancel_left_eq, prefix_iff_eq_take]
    exact eq_comm

end AppendOnlyFile

/-! ### Refinement -/

/-- The operations on a file. -/
inductive FileOp (β : Type)
  | append (data : List β)
  | rewind (nextPosition : ℕ)
  | read (position numBytes : ℕ)
  | commit
  | reload

/-- The abstract file: the list that is on disk and the list that it stands for. -/
structure ByteList (β : Type) where
  committed : List β
  current : List β

variable {β : Type}

/-- An operation of the class: what it returns, and the file afterwards.  An operation that fails
leaves the file as it was. -/
def AppendOnlyFile.exec (f : AppendOnlyFile β) :
    FileOp β → Except FileError (List β) × AppendOnlyFile β
  | .append data => (.ok [], f.append data)
  | .rewind n =>
    match f.rewind n with
    | .ok f' => (.ok [], f')
    | .error e => (.error e, f)
  | .read position numBytes => (f.read position numBytes, f)
  | .commit =>
    match f.commit with
    | .ok f' => (.ok [], f')
    | .error e => (.error e, f)
  | .reload => (.ok [], .load f.disk)

/-- The same operation on the list: appending, truncating and reading. -/
def ByteList.exec (l : ByteList β) : FileOp β → Except FileError (List β) × ByteList β
  | .append data => (.ok [], { l with current := l.current ++ data })
  | .rewind n =>
    if n ≤ l.current.length then (.ok [], { l with current := l.current.take n })
    else (.error .fileException, l)
  | .read position numBytes =>
    if position + numBytes ≤ l.current.length then
      (.ok ((l.current.drop position).take numBytes), l)
    else (.error .fileException, l)
  | .commit => (.ok [], ⟨l.current, l.current⟩)
  | .reload => (.ok [], ⟨l.committed, l.committed⟩)

/-- A sequence of operations on the list: what they return, and the list at the end. -/
def ByteList.execAll (l : ByteList β) :
    List (FileOp β) → List (Except FileError (List β)) × ByteList β
  | [] => ([], l)
  | op :: ops =>
    let (outputs, l') := (l.exec op).2.execAll ops
    ((l.exec op).1 :: outputs, l')

namespace AppendOnlyFile

/-- The list the file stands for. -/
def toByteList (f : AppendOnlyFile β) : ByteList β := ⟨f.disk, f.contents⟩

/-- A file is rewound only when no rewind is pending. -/
def Allowed (f : AppendOnlyFile β) : FileOp β → Prop
  | .rewind _ => f.fileSize = f.bufferIndex
  | _ => True

/-- When an operation does what it does to the list: a read inside the file must not run from
the mapped part into the buffer, and a buffer that is committed must not replace anything,
unless the bytes are the same. -/
def Safe (f : AppendOnlyFile β) : FileOp β → Prop
  | .read position numBytes =>
    f.getSize < position + numBytes ∨ f.bufferIndex ≤ position ∨
      f.buffer.take (position + numBytes - f.bufferIndex) <+: f.disk.drop f.bufferIndex
  | .commit => f.buffer <+: f.disk.drop f.bufferIndex ++ f.buffer
  | _ => True

instance (f : AppendOnlyFile β) : (op : FileOp β) → Decidable (f.Allowed op)
  | .rewind _ => inferInstanceAs (Decidable (_ = _))
  | .append _ | .read _ _ | .commit | .reload => isTrue trivial

instance [DecidableEq β] (f : AppendOnlyFile β) : (op : FileOp β) → Decidable (f.Safe op)
  | .read _ _ => inferInstanceAs (Decidable (_ ∨ _ ∨ _))
  | .commit => inferInstanceAs (Decidable (_ <+: _))
  | .append _ | .rewind _ | .reload => isTrue trivial

/-- The operation returns the same and leaves the same list. -/
def Agrees (f : AppendOnlyFile β) (op : FileOp β) : Prop :=
  (f.exec op).1 = (f.toByteList.exec op).1 ∧ (f.exec op).2.toByteList = (f.toByteList.exec op).2

/-- A single operation agrees with the list exactly if it is safe. -/
lemma agrees_iff_safe (f : AppendOnlyFile β) (op : FileOp β) (hallowed : f.Allowed op) :
    f.Agrees op ↔ f.Safe op := by
  cases op with
  | append data =>
    refine iff_of_true ⟨rfl, ?_⟩ trivial
    change ByteList.mk f.disk (f.append data).contents = ⟨f.disk, f.contents ++ data⟩
    rw [contents_append]
  | rewind n =>
    refine iff_of_true ?_ trivial
    unfold Agrees exec ByteList.exec toByteList
    dsimp only
    rcases f.rewind_eq n hallowed with ⟨hend, herr⟩ | ⟨hle, f', hok, hcontents, hdisk⟩
    · rw [herr, if_neg (by rw [length_contents]; omega)]
      exact ⟨rfl, rfl⟩
    · rw [hok, if_pos (by rwa [length_contents])]
      exact ⟨rfl, by rw [hcontents, hdisk]⟩
  | read position numBytes =>
    unfold Agrees exec ByteList.exec toByteList Safe
    dsimp only
    by_cases hend : position + numBytes ≤ f.getSize
    · rw [if_pos (by rwa [length_contents]), and_iff_left rfl, f.read_eq_iff hend,
        or_iff_right (Nat.not_lt.mpr hend)]
    · rw [if_neg (by rwa [length_contents])]
      refine iff_of_true ⟨?_, rfl⟩ (.inl (Nat.lt_of_not_le hend))
      exact if_pos (Nat.lt_of_not_le hend)
  | commit =>
    unfold Agrees exec ByteList.exec toByteList Safe
    dsimp only
    rw [← commit_eq_iff]
    obtain ⟨disk, hdisk⟩ := f.exists_commit_eq
    rw [hdisk]
    constructor
    · rintro ⟨-, h⟩
      rw [show disk = f.contents from congrArg ByteList.committed h]
    · intro h
      have heq : disk = f.contents := congrArg AppendOnlyFile.disk (Except.ok.inj h)
      rw [heq]
      exact ⟨rfl, by simp⟩
  | reload =>
    refine iff_of_true ⟨rfl, ?_⟩ trivial
    change ByteList.mk f.disk (load f.disk).contents = ⟨f.disk, f.disk⟩
    rw [contents_load]

/-- A sequence of operations: what they return, and the file at the end. -/
def execAll (f : AppendOnlyFile β) :
    List (FileOp β) → List (Except FileError (List β)) × AppendOnlyFile β
  | [] => ([], f)
  | op :: ops =>
    let (outputs, f') := (f.exec op).2.execAll ops
    ((f.exec op).1 :: outputs, f')

/-- Every operation of the sequence is allowed and safe when it is made. -/
def SafeRun (f : AppendOnlyFile β) : List (FileOp β) → Prop
  | [] => True
  | op :: ops => f.Allowed op ∧ f.Safe op ∧ (f.exec op).2.SafeRun ops

instance decidableSafeRun [DecidableEq β] :
    (f : AppendOnlyFile β) → (ops : List (FileOp β)) → Decidable (f.SafeRun ops)
  | _, [] => isTrue trivial
  | f, op :: ops =>
    have := decidableSafeRun (f.exec op).2 ops
    inferInstanceAs (Decidable (f.Allowed op ∧ f.Safe op ∧ (f.exec op).2.SafeRun ops))

/-- A sequence of safe operations agrees with the list. -/
lemma execAll_eq (f : AppendOnlyFile β) (ops : List (FileOp β)) (h : f.SafeRun ops) :
    (f.execAll ops).1 = (f.toByteList.execAll ops).1 ∧
      (f.execAll ops).2.toByteList = (f.toByteList.execAll ops).2 := by
  induction ops generalizing f with
  | nil => exact ⟨rfl, rfl⟩
  | cons op ops ih =>
    obtain ⟨hallowed, hsafe, hrest⟩ := h
    obtain ⟨hout, hstate⟩ := (f.agrees_iff_safe op hallowed).mpr hsafe
    obtain ⟨houts, hfinal⟩ := ih (f.exec op).2 hrest
    rw [hstate] at houts hfinal
    unfold execAll ByteList.execAll
    dsimp only
    exact ⟨by rw [hout, houts], hfinal⟩

/-- What `PMMR::BatchWrite` does with the file: cut it, append and commit. -/
def rewrite (f : AppendOnlyFile β) (n : ℕ) (data : List β) :
    Except FileError (AppendOnlyFile β) := do
  let f' ← f.rewind n
  (f'.append data).commit

lemma exists_rewrite_eq (f : AppendOnlyFile β) {n : ℕ} (data : List β)
    (hindex : f.fileSize = f.bufferIndex) (hn : n ≤ f.disk.length) :
    ∃ disk, f.rewrite n data = .ok (load disk) := by
  have hsize := f.fileSize_eq
  rcases f.rewind_eq n hindex with ⟨hend, -⟩ | ⟨-, f', hok, -⟩
  · unfold getSize at hend
    omega
  · rw [rewrite, bind_of_eq_ok hok]
    exact exists_commit_eq _

/-- Rewriting a committed file gives the intended content exactly if the new elements continue
the file as the ones they replace. -/
lemma rewrite_eq_iff (f : AppendOnlyFile β) {n : ℕ} (data : List β)
    (hindex : f.fileSize = f.bufferIndex) (hn : n ≤ f.disk.length) :
    f.rewrite n data = .ok (load (f.disk.take n ++ data)) ↔ data <+: f.disk.drop n ++ data := by
  have hsize := f.fileSize_eq
  have hrewind : f.rewind n = .ok
      { f with
        buffer := []
        bufferIndex := n
        bufferIndex_le := hn } := by
    unfold rewind
    rw [if_neg (not_not.mpr hindex), if_neg (by omega), dif_pos (by omega)]
  rw [rewrite, bind_of_eq_ok hrewind]
  have hiff := commit_eq_iff (append
    { f with
      buffer := []
      bufferIndex := n
      bufferIndex_le := hn } data)
  rw [contents_append] at hiff
  simpa [append, contents] using hiff

end AppendOnlyFile

open AppendOnlyFile in
/-- A file behaves like the list exactly as long as no read runs from the mapped file into the
buffer and no commit replaces bytes by others: single operations agree with the list exactly if
they are safe, sequences of safe operations agree with it, and cutting, appending and committing
writes the intended bytes exactly if the new bytes continue the file as the cut ones did. -/
theorem appendOnlyFile_refines_iff (β : Type) :
    (∀ (f : AppendOnlyFile β) (op : FileOp β), f.Allowed op → (f.Agrees op ↔ f.Safe op)) ∧
    (∀ (disk : List β) (ops : List (FileOp β)), (load disk).SafeRun ops →
      ((load disk).execAll ops).1 = (ByteList.execAll ⟨disk, disk⟩ ops).1 ∧
      ((load disk).execAll ops).2.getSize =
        (ByteList.execAll ⟨disk, disk⟩ ops).2.current.length ∧
      ((load disk).execAll ops).2.disk = (ByteList.execAll ⟨disk, disk⟩ ops).2.committed) ∧
    (∀ (f : AppendOnlyFile β) (n : ℕ) (data : List β), f.fileSize = f.bufferIndex →
      n ≤ f.disk.length → ∃ f', f.rewrite n data = .ok f' ∧
        (f'.disk = f.disk.take n ++ data ↔ data <+: f.disk.drop n ++ data)) := by
  refine ⟨agrees_iff_safe, ?_, ?_⟩
  · intro disk ops hsafe
    have hstart : (load disk).toByteList = ⟨disk, disk⟩ := by simp [toByteList]
    obtain ⟨houts, hfinal⟩ := execAll_eq (load disk) ops hsafe
    rw [hstart] at houts hfinal
    refine ⟨houts, ?_, congrArg ByteList.committed hfinal⟩
    rw [← length_contents]
    exact congrArg List.length (congrArg ByteList.current hfinal)
  · intro f n data hindex hn
    obtain ⟨disk, hdisk⟩ := f.exists_rewrite_eq data hindex hn
    refine ⟨load disk, hdisk, ?_⟩
    rw [← f.rewrite_eq_iff data hindex hn, hdisk]
    constructor
    · intro h
      rw [show disk = f.disk.take n ++ data from h]
    · exact fun h => congrArg AppendOnlyFile.disk (Except.ok.inj h)

/-- Three bytes of which the last two are cut off and one of them is replaced: the file goes on
with the old byte.  A read that starts in the file and ends in the buffer leaves the file. -/
theorem appendOnlyFile_stale_bytes :
    ((AppendOnlyFile.load [1, 2, 3]).rewrite 1 [9]).map AppendOnlyFile.disk =
        .ok ([1, 2] : List UInt8) ∧
      [1, 2, 3].take 1 ++ [9] = ([1, 9] : List UInt8) ∧
      ((AppendOnlyFile.load [1]).append [2]).read 0 2 =
        (.error .outOfBounds : Except FileError (List UInt8)) :=
  ⟨rfl, rfl, rfl⟩

/-- Cutting bytes off, committing and then appending others agrees with the list. -/
theorem appendOnlyFile_refines_iff_cutFirst :
    let ops : List (FileOp UInt8) := [.rewind 1, .commit, .append [9], .commit, .read 0 2]
    (AppendOnlyFile.load [1, 2, 3]).SafeRun ops ∧
      ((AppendOnlyFile.load [1, 2, 3]).execAll ops).1 =
        (ByteList.execAll ⟨[1, 2, 3], [1, 2, 3]⟩ ops).1 ∧
      ((AppendOnlyFile.load [1, 2, 3]).execAll ops).2.disk = [1, 9] := by
  have hsafe : (AppendOnlyFile.load ([1, 2, 3] : List UInt8)).SafeRun
      [.rewind 1, .commit, .append [9], .commit, .read 0 2] := by
    decide
  have hrun := (appendOnlyFile_refines_iff UInt8).2.1 [1, 2, 3] _ hsafe
  exact ⟨hsafe, hrun.1, hrun.2.2⟩

end Mw

end Aegisum
