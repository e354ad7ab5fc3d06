import Prismalama.Lib.GoMap
import Prismalama.Lib.GoStrings

/-!
# The blob cache (`server/internal/cache/blob/cache.go`, `chunked.go`)

A cache is a directory of blob files, named by their digests, and one of
manifest files, named by the models. Only sizes are looked at: a file that has
the size it should have is taken for the blob.
-/

namespace Prismalama.Ollama

open Prismalama.Lib

abbrev File := List UInt8

/-- `WriteAt`; a gap behind the end of the file reads as zeros. -/
def File.writeAt (f : File) (off : Nat) (p : List UInt8) : File :=
  (f.take off ++ List.replicate (off - f.length) 0) ++ p ++ f.drop (off + p.length)

theorem File.length_writeAt (f : File) (off : Nat) (p : List UInt8) :
    (f.writeAt off p).length = max f.length (off + p.length) := by
  simp only [File.writeAt, List.length_append, List.length_take, List.length_replicate,
    List.length_drop]
  omega

theorem File.getElem?_writeAt_self (f : File) {off k : Nat} {p : List UInt8} (hlo : off ≤ k)
    (hhi : k < off + p.length) : (f.writeAt off p)[k]? = p[k - off]? := by
  have hfront : (f.take off ++ List.replicate (off - f.length) 0).length = off := by
    rw [List.length_append, List.length_take, List.length_replicate]
    omega
  rw [File.writeAt, List.append_assoc, List.getElem?_append_right (by omega), hfront,
    List.getElem?_append_left (by omega)]

theorem File.getElem?_writeAt_other (f : File) {off k : Nat} {p : List UInt8}
    (h : k < off ∨ off + p.length ≤ k) (hk : k < f.length) : (f.writeAt off p)[k]? = f[k]? := by
  have hfront : (f.take off ++ List.replicate (off - f.length) 0).length = off := by
    rw [List.length_append, List.length_take, List.length_replicate]
    omega
  rcases h with h | h
  · rw [File.writeAt, List.append_assoc, List.getElem?_append_left (by omega),
      List.getElem?_append_left (by rw [List.length_take]; omega), List.getElem?_take_of_lt h]
  · rw [File.writeAt, List.getElem?_append_right (by rw [List.length_append]; omega),
      List.length_append, hfront, List.getElem?_drop]
    congr 1
    omega

/-- A write of no bytes does not extend a file. -/
def File.write (f : File) (off : Nat) (p : List UInt8) : File :=
  if p = [] then f else f.writeAt off p

theorem File.length_write_le (f : File) (off : Nat) (p : List UInt8) {n : Nat}
    (hf : f.length ≤ n) (hp : off + p.length ≤ n) : (f.write off p).length ≤ n := by
  rw [File.write]
  split
  · exact hf
  · rw [File.length_writeAt]
    exact max_le hf hp

theorem File.getElem?_write_self (f : File) {off k : Nat} {p : List UInt8} (hlo : off ≤ k)
    (hhi : k < off + p.length) : (f.write off p)[k]? = p[k - off]? := by
  have hne : p ≠ [] := by
    rintro rfl
    rw [List.length_nil] at hhi
    omega
  rw [File.write, if_neg hne]
  exact f.getElem?_writeAt_self hlo hhi

theorem File.getElem?_write_other (f : File) {off k : Nat} {p : List UInt8}
    (h : k < off ∨ off + p.length ≤ k) (hk : k < f.length) : (f.write off p)[k]? = f[k]? := by
  rw [File.write]
  split
  · rfl
  · exact f.getElem?_writeAt_other h hk

/-- A write reaches a length the file has or the end of its bytes. -/
theorem File.length_write_eq {f : File} {off n : Nat} {p : List UInt8}
    (h : (f.write off p).length = n) : f.length = n ∨ off + p.length = n := by
  rw [File.write] at h
  split at h
  · exact .inl h
  · rw [File.length_writeAt] at h
    omega

/-- A file that begins with the bytes keeps them. -/
theorem File.write_prefix {f : File} {p : List UInt8} (h : p <+: f) : f.write 0 p = f := by
  obtain ⟨t, rfl⟩ := h
  rw [File.write]
  split
  · rfl
  · simp [File.writeAt]

/-! ## Copying a file -/

/-- What the operating system makes of the calls that create and fill a file. -/
inductive Outcome
  | ok
  | openFails
  /-- Not all is read or written; then the file is truncated, if it can be. -/
  | writeFails (written : Nat) (truncated : Bool)
  /-- `Close` fails; then the file is removed, if it can be. -/
  | closeFails (removed : Bool)
deriving DecidableEq

section Copy

variable {κ D : Type*} [DecidableEq κ] [DecidableEq D]

/-- What is written to: a file that is longer is truncated (`O_TRUNC`). -/
def openFile (files : GoMap κ File) (name : κ) (size : Nat) : File :=
  ((AList.lookup name files).filter (·.length < size)).getD []

/-- `copyNamedFile`, once the file is open. -/
def fillFile (sum : File → D) (files : GoMap κ File) (name : κ) (file : File) (out : D) :
    Outcome → GoMap κ File × Bool
  | .writeFails written false =>
    -- the last write is refused when the sum is another one
    let n := if sum file = out then written else min written (file.length - 1)
    (AList.insert name ((openFile files name file.length).write 0 (file.take n)) files, false)
  | .writeFails _ true => (AList.insert name [] files, false)
  | .closeFails removed =>
    if sum file ≠ out then (AList.insert name [] files, false)
    else if removed = true then (AList.erase name files, false)
    else (AList.insert name file files, false)
  | .ok | .openFails =>
    if sum file ≠ out then (AList.insert name [] files, false)
    else (AList.insert name file files, true)

/-- `copyNamedFile`, of all the bytes of `file`; `false` for an error. -/
def copyNamedFile (sum : File → D) (files : GoMap κ File) (name : κ) (file : File) (out : D)
    (o : Outcome) : GoMap κ File × Bool :=
  if (AList.lookup name files).map List.length = some file.length then (files, true)
  else if o = .openFails then (files, false)
  else if file.length = 0 then (AList.insert name [] files, true)
  else fillFile sum files name file out o

theorem length_openFile_le (files : GoMap κ File) (name : κ) (size : Nat) :
    (openFile files name size).length ≤ size := by
  rw [openFile]
  cases h : (AList.lookup name files).filter (·.length < size) with
  | none => exact Nat.zero_le _
  | some f => exact Nat.le_of_lt (of_decide_eq_true (Option.filter_eq_some_iff.mp h).2)

/-- A copy finds a file of the right size; or it cannot open the file; or it writes all of
it; or it fails and leaves a file that is no longer, or none. -/
theorem copyNamedFile_cases (sum : File → D) (files : GoMap κ File) (name : κ) (file : File)
    (out : D) (o : Outcome) :
    (AList.lookup name files).map List.length = some file.length ∧
        copyNamedFile sum files name file out o = (files, true) ∨
      (AList.lookup name files).map List.length ≠ some file.length ∧
        (o = .openFails ∧ copyNamedFile sum files name file out o = (files, false) ∨
        o ≠ .openFails ∧
          (copyNamedFile sum files name file out o = (AList.insert name file files, true) ∧
              (file = [] ∨ sum file = out) ∨
            file ≠ [] ∧
              ((∃ f, copyNamedFile sum files name file out o = (AList.insert name f files, false) ∧
                  f.length ≤ file.length) ∨
                copyNamedFile sum files name file out o = (AList.erase name files, false)))) := by
  by_cases hsize : (AList.lookup name files).map List.length = some file.length
  · exact .inl ⟨hsize, by rw [copyNamedFile, if_pos hsize]⟩
  refine .inr ⟨hsize, ?_⟩
  by_cases ho : o = .openFails
  · exact .inl ⟨ho, by rw [copyNamedFile, if_neg hsize, if_pos ho]⟩
  refine .inr ⟨ho, ?_⟩
  rw [copyNamedFile, if_neg hsize, if_neg ho]
  by_cases hempty : file.length = 0
  · obtain rfl := List.eq_nil_of_length_eq_zero hempty
    exact .inl ⟨if_pos hempty, .inl rfl⟩
  have hne : file ≠ [] := fun h => hempty (by rw [h, List.length_nil])
  rw [if_neg hempty]
  cases o with
  | openFails => exact absurd rfl ho
  | ok =>
    by_cases hsum : sum file = out
    · exact .inl ⟨if_neg (not_not.mpr hsum), .inr hsum⟩
    · exact .inr ⟨hne, .inl ⟨[], if_pos hsum, Nat.zero_le _⟩⟩
  | writeFails written truncated =>
    refine .inr ⟨hne, .inl ?_⟩
    cases truncated with
    | true => exact ⟨[], rfl, Nat.zero_le _⟩
    | false =>
      refine ⟨_, rfl, File.length_write_le _ _ _ (length_openFile_le files name _) ?_⟩
      rw [List.length_take]
      omega
  | closeFails removed =>
    refine .inr ⟨hne, ?_⟩
    by_cases hsum : sum file = out
    · cases removed with
      | true => exact .inr (if_neg (not_not.mpr hsum))
      | false => exact .inl ⟨file, if_neg (not_not.mpr hsum), le_rfl⟩
    · exact .inl ⟨[], if_pos hsum, Nat.zero_le _⟩

/-- A copy that succeeds either found a file of the right size or wrote all of it. -/
theorem copyNamedFile_ok {sum : File → D} {files files' : GoMap κ File} {name : κ} {file : File}
    {out : D} {o : Outcome} (h : copyNamedFile sum files name file out o = (files', true)) :
    (files' = files ∧ (AList.lookup name files).map List.length = some file.length) ∨
      (files' = AList.insert name file files ∧ (file = [] ∨ sum file = out)) := by
  rcases copyNamedFile_cases sum files name file out o with ⟨hsize, heq⟩ |
    ⟨-, ⟨-, heq⟩ | ⟨-, ⟨heq, hsum⟩ | ⟨-, ⟨f, heq, -⟩ | heq⟩⟩⟩ <;> rw [heq] at h
  · exact .inl ⟨(Prod.mk.inj h).1.symm, hsize⟩
  · cases (Prod.mk.inj h).2
  · exact .inr ⟨(Prod.mk.inj h).1.symm, hsum⟩
  · cases (Prod.mk.inj h).2
  · cases (Prod.mk.inj h).2

/-- Whatever comes of a copy, a file is the old one, or under the name and not longer than
the new one. -/
theorem lookup_copyNamedFile {sum : File → D} {files : GoMap κ File} {name : κ} {file : File}
    {out : D} {o : Outcome} {k : κ} {f : File}
    (h : AList.lookup k (copyNamedFile sum files name file out o).1 = some f) :
    AList.lookup k files = some f ∨ k = name ∧ f.length ≤ file.length := by
  have hinsert : ∀ g : File, g.length ≤ file.length →
      AList.lookup k (AList.insert name g files) = some f →
      AList.lookup k files = some f ∨ k = name ∧ f.length ≤ file.length := by
    intro g hg hk
    rw [GoMap.lookup_insert_ite] at hk
    split at hk
    · obtain rfl := Option.some.inj hk
      exact .inr ⟨‹_›, hg⟩
    · exact .inl hk
  rcases copyNamedFile_cases sum files name file out o with ⟨-, heq⟩ |
    ⟨-, ⟨-, heq⟩ | ⟨-, ⟨heq, -⟩ | ⟨-, ⟨g, heq, hg⟩ | heq⟩⟩⟩ <;> rw [heq] at h
  · exact .inl h
  · exact .inl h
  · exact hinsert file le_rfl h
  · exact hinsert g hg h
  · rw [GoMap.lookup_erase_ite] at h
    split at h
    · cases h
    · exact .inl h

end Copy

/-! ## The cache -/

structure DiskCache (D : Type*) where
  blobs : GoMap D File
  /-- The manifest files, under the names they link. -/
  links : GoMap GoString File

namespace DiskCache

variable {D : Type*} [DecidableEq D]

/-- The upper case letters of ASCII to lower case. -/
def foldByte (b : UInt8) : UInt8 := if 0x41 ≤ b ∧ b ≤ 0x5A then b + 0x20 else b

/-- `strings.EqualFold`, for the characters that names are made of. -/
def equalFold (s t : GoString) : Bool := s.map foldByte == t.map foldByte

theorem equalFold_self (s : GoString) : equalFold s s = true := beq_self_eq_true _

/-- `manifestPath`. No two links are equal under folding, as `link` writes to the
path this returns, so that the order of the directory does not matter. -/
def manifestPath (c : DiskCache D) (name : GoString) : GoString :=
  (c.links.keys.find? (equalFold name)).getD name

/-- What `Resolve` reads for a name. -/
def manifest (c : DiskCache D) (name : GoString) : Option File :=
  AList.lookup (c.manifestPath name) c.links

/-- `Get`, for the size of the entry; an empty file does not exist. -/
def get (c : DiskCache D) (d : D) : Option Int :=
  (AList.lookup d c.blobs).bind fun f => if f.length = 0 then none else some f.length

/-- `PutBytes` -/
def putBytes (sum : File → D) (c : DiskCache D) (d : D) (data : File) (o : Outcome) :
    DiskCache D × Bool :=
  let r := copyNamedFile sum c.blobs d data d o
  ({ c with blobs := r.1 }, r.2)

/-- `Link` -/
def link (sum : File → D) (c : DiskCache D) (name : GoString) (d : D) (o : Outcome) :
    DiskCache D × Bool :=
  match AList.lookup d c.blobs with
  | none => (c, false)
  | some f =>
    let r := copyNamedFile sum c.links (c.manifestPath name) f d o
    ({ c with links := r.1 }, r.2)

/-- The file of a `Chunker`. -/
inductive Handle
  /-- There is none, as the blob is there already. -/
  | preValidated
  | file
  /-- It was removed while it was open. -/
  | unlinked
deriving DecidableEq

/-- `Chunked`; `opened` is whether the file can be opened. -/
def chunked (c : DiskCache D) (d : D) (size : Int) (opened : Bool) :
    Option (DiskCache D × Handle) :=
  if (AList.lookup d c.blobs).map (fun f => (f.length : Int)) = some size then
    some (c, .preValidated)
  else if opened = true then
    match AList.lookup d c.blobs with
    | none => some ({ c with blobs := AList.insert d [] c.blobs }, .file)
    | some _ => some (c, .file)
  else none

/-- The file of a blob that the cache does not have any more was removed. -/
def Handle.unlink (h : Handle) (c : DiskCache D) (d : D) : Handle :=
  if h = .file ∧ AList.lookup d c.blobs = none then .unlinked else h

theorem Handle.unlink_eq_file {h : Handle} {c : DiskCache D} {d : D} (hh : h.unlink c d = .file) :
    (AList.lookup d c.blobs).isSome = true := by
  rw [Handle.unlink] at hh
  split at hh
  · cases hh
  · rename_i hlost
    rw [Option.isSome_iff_ne_none]
    exact fun hnone => hlost ⟨hh, hnone⟩

/-- A write to the open file of a blob. -/
def write (c : DiskCache D) (d : D) (off : Nat) (p : List UInt8) : DiskCache D :=
  match AList.lookup d c.blobs with
  | none => c
  | some f => { c with blobs := AList.insert d (File.writeAt f off p) c.blobs }

omit [DecidableEq D] in
/-- The path a name was linked at is the one it resolves to. -/
theorem manifestPath_insert (c : DiskCache D) (name : GoString) (f : File) :
    manifestPath { c with links := AList.insert (c.manifestPath name) f c.links } name =
      c.manifestPath name := by
  have hfold : equalFold name (c.manifestPath name) = true := by
    simp only [manifestPath]
    cases hfind : c.links.keys.find? (equalFold name) with
    | none => exact equalFold_self name
    | some p => exact List.find?_some hfind
  show ((AList.insert (c.manifestPath name) f c.links).keys.find? (equalFold name)).getD name = _
  rw [AList.keys_insert, List.find?_cons_of_pos hfold]
  rfl

/-- A put that succeeds either found a file of the right size or wrote all of it. -/
theorem putBytes_ok {sum : File → D} {c c' : DiskCache D} {d : D} {data : File} {o : Outcome}
    (h : c.putBytes sum d data o = (c', true)) :
    (c' = c ∧ (AList.lookup d c.blobs).map List.length = some data.length) ∨
      c' = { c with blobs := AList.insert d data c.blobs } := by
  simp only [putBytes] at h
  cases hcopy : copyNamedFile sum c.blobs d data d o with
  | mk blobs ok =>
    rw [hcopy] at h
    obtain ⟨rfl, rfl⟩ := Prod.mk.inj h
    rcases copyNamedFile_ok hcopy with ⟨rfl, hsize⟩ | ⟨rfl, -⟩
    · exact .inl ⟨rfl, hsize⟩
    · exact .inr rfl

/-- A link that succeeds leaves a file of the size of the blob under the name, and
one with its digest unless it was there before. -/
theorem link_ok {sum : File → D} {c c' : DiskCache D} {name : GoString} {d : D} {o : Outcome}
    (h : c.link sum name d o = (c', true)) : ∃ b f, AList.lookup d c.blobs = some b ∧
      c'.blobs = c.blobs ∧ c'.manifest name = some f ∧
      (c.manifest name = some f ∧ f.length = b.length ∨ f = b ∧ (b = [] ∨ sum b = d)) := by
  simp only [link] at h
  split at h
  · cases (Prod.mk.inj h).2
  · rename_i b hb
    cases hcopy : copyNamedFile sum c.links (c.manifestPath name) b d o with
    | mk links ok =>
      rw [hcopy] at h
      obtain ⟨rfl, rfl⟩ := Prod.mk.inj h
      rcases copyNamedFile_ok hcopy with ⟨rfl, hsize⟩ | ⟨rfl, hsum⟩
      · obtain ⟨f, hf, hlen⟩ := Option.map_eq_some_iff.mp hsize
        exact ⟨b, f, hb, rfl, hf, .inl ⟨hf, hlen⟩⟩
      · refine ⟨b, b, hb, rfl, ?_, .inr ⟨rfl, hsum⟩⟩
        rw [manifest, manifestPath_insert]
        exact AList.lookup_insert _

end DiskCache

end Prismalama.Ollama
