import Prismalama.Ollama.DiskCache
import Prismalama.Lib.TSys

/-!
# Puts of one blob at a time (`server/internal/cache/blob/cache.go`)

Calls of `Put` for one blob share a file and no lock. Each writes at its own offset,
checks the sum of the bytes it read before the last ones are written, and empties the
file when it fails. Alone a call is safe (`concurrent_put`, where nothing interferes),
but a call that fails can empty the file under one that goes on (`put_leaves_hole`).
-/

namespace Prismalama.Ollama

open Prismalama.Lib

namespace ConcurrentPut

/-! ## The model -/

/-- What is put: `content` under its sum. -/
structure Blob (D : Type*) where
  sum : File → D
  content : File

namespace Blob

variable {D : Type*} (b : Blob D)

def digest : D := b.sum b.content

def size : Nat := b.content.length

/-- The checks of `checkWriter.Write`, of bytes behind those written. -/
def check [DecidableEq D] (written p : File) : Bool :=
  (decide (written.length + p.length ≠ b.size) || decide (b.sum (written ++ p) = b.digest)) &&
    decide (written.length + p.length ≤ b.size)

/-- What a write to the file puts there; `cut` is where it fails. -/
def bytes [DecidableEq D] (written p : File) (cut : Option Nat) : File :=
  if b.check written p = true then cut.elim p p.take else []

end Blob

/-- How far a call is. A call with the file open has the number of the file, as its name
may be removed and created again. -/
inductive Phase
  | stat
  | opening (trunc : Bool)
  | copying (ino : Nat) (written : File)
  | failed (ino : Nat)
  | closing (ino : Nat)
  | removing
  | returned (ok : Bool)
  deriving DecidableEq

structure Disk where
  path : Option Nat
  data : Nat → File
  next : Nat

namespace Disk

/-- The file of the blob. -/
def file (k : Disk) : Option File := k.path.map k.data

def setData (k : Disk) (ino : Nat) (f : File) : Disk :=
  { k with data := Function.update k.data ino f }

/-- `OpenFile` with `O_CREATE`, and with `O_TRUNC` if it says so. -/
def openFile (k : Disk) (trunc : Bool) : Disk × Nat :=
  match k.path with
  | some ino => (if trunc = true then k.setData ino [] else k, ino)
  | none => ({ k.setData k.next [] with path := some k.next, next := k.next + 1 }, k.next)

end Disk

structure State where
  disk : Disk
  calls : List Phase

inductive Label
  | put
  | stat (i : Nat)
  | open (i : Nat) (ok : Bool)
  | read (i : Nat) (p : File) (cut : Option Nat)
  | readError (i : Nat)
  | eof (i : Nat)
  | truncate (i : Nat) (ok : Bool)
  | close (i : Nat) (ok : Bool)
  | remove (i : Nat) (ok : Bool)

variable {D : Type*} [DecidableEq D] (b : Blob D)

def State.setCall (s : State) (i : Nat) (ph : Phase) : State :=
  { s with calls := s.calls.set i ph }

/-- `copyNamedFile`, up to `OpenFile`. -/
def afterStat (f : Option File) : Phase :=
  match f with
  | none => .opening false
  | some f => if f.length = b.size then .returned true else .opening (decide (b.size < f.length))

/-- One file operation, or one read, of one of the calls. -/
def step (s : State) : Label → Option State
  | .put => some { s with calls := s.calls ++ [.stat] }
  | .stat i =>
    match s.calls[i]? with
    | some .stat => some (s.setCall i (afterStat b s.disk.file))
    | _ => none
  | .open i ok =>
    match s.calls[i]? with
    | some (.opening trunc) =>
      if ok = false then some (s.setCall i (.returned false))
      else
        some ⟨(s.disk.openFile trunc).1, s.calls.set i
          (if b.size = 0 then .returned true else .copying (s.disk.openFile trunc).2 [])⟩
    | _ => none
  | .read i p cut =>
    match s.calls[i]? with
    | some (.copying ino written) =>
      let f := (s.disk.data ino).write written.length (b.bytes written p cut)
      some ⟨s.disk.setData ino f, s.calls.set i
        (if b.check written p = true ∧ cut = none then .copying ino (written ++ p)
          else .failed ino)⟩
    | _ => none
  | .readError i =>
    match s.calls[i]? with
    | some (.copying ino _) => some (s.setCall i (.failed ino))
    | _ => none
  | .eof i =>
    match s.calls[i]? with
    | some (.copying ino written) =>
      some (s.setCall i (if written.length < b.size then .failed ino else .closing ino))
    | _ => none
  | .truncate i ok =>
    match s.calls[i]? with
    | some (.failed ino) =>
      some ⟨if ok = true then s.disk.setData ino [] else s.disk, s.calls.set i (.returned false)⟩
    | _ => none
  | .close i ok =>
    match s.calls[i]? with
    | some (.closing _) => some (s.setCall i (if ok = true then .returned true else .removing))
    | _ => none
  | .remove i ok =>
    match s.calls[i]? with
    | some .removing =>
      some ⟨if ok = true then { s.disk with path := none } else s.disk,
        s.calls.set i (.returned false)⟩
    | _ => none

/-- The file of a call that reads, and what the call has written. -/
def Phase.copied : Phase → Option (Nat × File)
  | .copying ino written => some (ino, written)
  | _ => none

/-- The file of a call that has failed. -/
def Phase.spoilt : Phase → Option Nat
  | .failed ino => some ino
  | _ => none

/-- A read has bytes, and no reader has another text of the blob's size and digest. -/
def Enabled (s : State) : Label → Prop
  | .read i p _ => p ≠ [] ∧ ∀ c ∈ s.calls[i]?.bind Phase.copied,
      (c.2 ++ p).length = b.size → b.sum (c.2 ++ p) = b.digest → c.2 ++ p = b.content
  | _ => True

/-- Any number of calls, from any file that is the blob if it has its size. -/
def sys : TSys State Label where
  init s := s.calls = [] ∧ (∀ ino ∈ s.disk.path, ino < s.disk.next) ∧
    ∀ f ∈ s.disk.file, f.length = b.size → f = b.content
  step s a s' := Enabled b s a ∧ step b s a = some s'

/-! ## When nothing interferes -/

/-- The file of a call that may still succeed, and how much of it the call has written. -/
def Phase.progress (content : File) : Phase → Option (Nat × Nat)
  | .copying ino written => if written <+: content then some (ino, written.length) else none
  | .closing ino => some (ino, content.length)
  | _ => none

/-- The file is empty; or no call has returned nil, and none that may still succeed has
written anything. -/
def Spared (s : State) : Prop :=
  s.disk.file = some [] ∨ .returned true ∉ s.calls ∧
    ∀ ph ∈ s.calls, ∀ r ∈ ph.progress b.content, r.2 = 0

/-- The bytes put in the file of the blob are the blob's, unless the file is not complete
and no call that may still succeed has written as far. -/
def CarefulBytes (s : State) (ino : Nat) (written q : File) : Prop :=
  s.disk.path = some ino → ∀ t < q.length, q[t]? = b.content[written.length + t]? ∨
    (s.disk.data ino).length ≠ b.size ∧
      ∀ ph ∈ s.calls, ∀ r ∈ ph.progress b.content, r.2 ≤ written.length + t

/-- A file is emptied or removed only when no call relies on it, and bytes that are not
the blob's are only written behind those of every call that may still succeed, in a file
that is not complete. -/
def Careful (s : State) : Label → Prop
  | .open i ok => ok = true → s.calls[i]? = some (.opening true) → Spared b s
  | .read i p cut => ∀ c ∈ s.calls[i]?.bind Phase.copied,
      CarefulBytes b s c.1 c.2 (b.bytes c.2 p cut)
  | .truncate i ok => ∀ ino ∈ s.calls[i]?.bind Phase.spoilt,
      ok = true → s.disk.path = some ino → Spared b s
  | .remove _ ok => ok = true → .returned true ∉ s.calls ∧
      ∀ ph ∈ s.calls, ph.progress b.content = none
  | _ => True

instance (s : State) (ino : Nat) (written q : File) : Decidable (CarefulBytes b s ino written q) :=
  inferInstanceAs (Decidable (s.disk.path = some ino → _))

instance (s : State) : Decidable (Spared b s) := inferInstanceAs (Decidable (_ ∨ _))

instance (s : State) : DecidablePred (Careful b s)
  | .open _ _ => inferInstanceAs (Decidable (_ → _))
  | .read i _ _ => inferInstanceAs (Decidable (∀ c ∈ s.calls[i]?.bind Phase.copied, _))
  | .truncate i _ => inferInstanceAs (Decidable (∀ ino ∈ s.calls[i]?.bind Phase.spoilt, _))
  | .remove _ _ => inferInstanceAs (Decidable (_ → _))
  | .put | .stat _ | .readError _ | .eof _ | .close _ _ => .isTrue trivial

instance (s : State) : DecidablePred (Enabled b s)
  | .read i _ _ => inferInstanceAs (Decidable (_ ∧ ∀ c ∈ s.calls[i]?.bind Phase.copied, _))
  | .put | .stat _ | .open _ _ | .readError _ | .eof _ | .truncate _ _ | .close _ _
  | .remove _ _ => .isTrue trivial

/-! ## The invariant -/

/-- The file a call is to finish. -/
def Phase.ino : Phase → Option Nat
  | .copying ino _ => some ino
  | .closing ino => some ino
  | _ => none

/-- What a call finds on the disk. -/
structure Sound (k : Disk) (ph : Phase) : Prop where
  bounded : ∀ ino ∈ ph.ino, (k.data ino).length ≤ b.size
  written : ∀ ino written, ph = .copying ino written →
    written.length ≤ b.size ∧ (written.length = b.size → written = b.content)
  opening : ph = .opening false → ∀ f ∈ k.file, f.length ≤ b.size
  agrees : ∀ r ∈ ph.progress b.content, k.path = some r.1 ∧
    ∀ j < r.2, (k.data r.1)[j]? = b.content[j]?
  returned : ph = .returned true → k.file = some b.content

structure Inv (s : State) : Prop where
  full : ∀ f ∈ s.disk.file, f.length = b.size → f = b.content
  calls : ∀ ph ∈ s.calls, Sound b s.disk ph

variable {b} {k : Disk} {ph : Phase}

theorem file_eq {ino : Nat} (h : k.path = some ino) : k.file = some (k.data ino) := by
  rw [Disk.file, h]
  rfl

theorem data_setData_self (k : Disk) (ino : Nat) (f : File) :
    (k.setData ino f).data ino = f := by
  show Function.update k.data ino f ino = f
  rw [Function.update_self]

theorem file_setData_self {ino : Nat} (h : k.path = some ino) (f : File) :
    (k.setData ino f).file = some f := by
  rw [file_eq (show (k.setData ino f).path = some ino from h)]
  rw [data_setData_self]

theorem data_setData_ne {ino ino' : Nat} (h : ino' ≠ ino) (f : File) :
    (k.setData ino f).data ino' = k.data ino' := Function.update_of_ne h _ _

theorem file_setData_ne {ino : Nat} (h : k.path ≠ some ino) (f : File) :
    (k.setData ino f).file = k.file := by
  show k.path.map _ = k.path.map _
  cases hpath : k.path with
  | none => rfl
  | some p =>
    have hne : p ≠ ino := fun heq => h (heq ▸ hpath)
    exact congrArg some (data_setData_ne hne f)

omit [DecidableEq D] in
/-- Other contents of a file, if they agree with what a call has written. -/
theorem Sound.setData (h : Sound b k ph) {ino : Nat} {f : File} (hlen : f.length ≤ b.size)
    (hagrees : k.path = some ino → ∀ r ∈ ph.progress b.content, ∀ j < r.2,
      f[j]? = b.content[j]?)
    (hreturned : k.path = some ino → ph = .returned true → f = b.content) :
    Sound b (k.setData ino f) ph := by
  constructor
  · intro ino' hmem
    by_cases hino : ino' = ino
    · subst ino'
      rw [data_setData_self]
      exact hlen
    · rw [data_setData_ne hino]
      exact h.bounded ino' hmem
  · exact h.written
  · intro heq f' hf'
    by_cases hpath : k.path = some ino
    · rw [file_setData_self hpath] at hf'
      obtain rfl := Option.some.inj hf'
      exact hlen
    · rw [file_setData_ne hpath] at hf'
      exact h.opening heq f' hf'
  · intro r hr
    obtain ⟨hpath, hdata⟩ := h.agrees r hr
    refine ⟨hpath, fun j hj => ?_⟩
    by_cases hino : r.1 = ino
    · subst hino
      rw [data_setData_self]
      exact hagrees hpath r hr j hj
    · rw [data_setData_ne hino]
      exact hdata j hj
  · intro heq
    by_cases hpath : k.path = some ino
    · rw [file_setData_self hpath, hreturned hpath heq]
    · rw [file_setData_ne hpath]
      exact h.returned heq

omit [DecidableEq D] in
/-- A file that is created. No call relies on one that is not there. -/
theorem Sound.create (h : Sound b k ph) (hpath : k.path = none) (n : Nat) :
    Sound b { k.setData k.next [] with path := some k.next, next := n } ph := by
  constructor
  · intro ino hmem
    show ((k.setData k.next []).data ino).length ≤ _
    by_cases hino : ino = k.next
    · subst hino
      rw [data_setData_self]
      exact Nat.zero_le _
    · rw [data_setData_ne hino]
      exact h.bounded ino hmem
  · exact h.written
  · intro heq f hf
    obtain rfl : (k.setData k.next []).data k.next = f := Option.some.inj hf
    rw [data_setData_self]
    exact Nat.zero_le _
  · intro r hr
    have hsome := (h.agrees r hr).1
    rw [hpath] at hsome
    cases hsome
  · intro heq
    have hfile := h.returned heq
    rw [Disk.file, hpath] at hfile
    cases hfile

omit [DecidableEq D] in
theorem Sound.remove (h : Sound b k ph) (hprogress : ph.progress b.content = none)
    (hne : ph ≠ .returned true) : Sound b { k with path := none } ph := by
  constructor
  · exact h.bounded
  · exact h.written
  · intro _ f hf
    cases hf
  · intro r hr
    rw [hprogress] at hr
    cases hr
  · intro heq
    exact absurd heq hne

omit [DecidableEq D] in
/-- The phases that say nothing about the disk. -/
theorem Sound.of_idle (hino : ph.ino = none) (hopening : ph ≠ .opening false)
    (hprogress : ph.progress b.content = none) (hreturned : ph ≠ .returned true) :
    Sound b k ph where
  bounded ino hmem := by
    rw [hino] at hmem
    cases hmem
  written ino written heq := by
    rw [heq] at hino
    cases hino
  opening heq := absurd heq hopening
  agrees r hr := by
    rw [hprogress] at hr
    cases hr
  returned heq := absurd heq hreturned

omit [DecidableEq D] in
theorem sound_failed (ino : Nat) : Sound b k (.failed ino) :=
  .of_idle rfl nofun rfl nofun

omit [DecidableEq D] in
theorem sound_returned_false : Sound b k (.returned false) :=
  .of_idle rfl nofun rfl nofun

omit [DecidableEq D] in
/-- One call goes on, and the others find on the disk what they did. -/
theorem Inv.set {s : State} {k : Disk} {i : Nat}
    (hfull : ∀ f ∈ k.file, f.length = b.size → f = b.content)
    (hothers : ∀ ph ∈ s.calls, Sound b k ph) (hph : Sound b k ph) :
    Inv b ⟨k, s.calls.set i ph⟩ := by
  refine ⟨hfull, fun ph' hmem => ?_⟩
  rcases List.mem_or_eq_of_mem_set hmem with hold | rfl
  · exact hothers ph' hold
  · exact hph

omit [DecidableEq D] in
theorem Inv.setCall {s : State} (hinv : Inv b s) {i : Nat} (hph : Sound b s.disk ph) :
    Inv b (s.setCall i ph) :=
  Inv.set hinv.full hinv.calls hph

/-! ## The steps -/

omit [DecidableEq D] in
theorem sound_afterStat (hfull : ∀ f ∈ k.file, f.length = b.size → f = b.content) :
    Sound b k (afterStat b k.file) := by
  cases hfile : k.file with
  | none =>
    refine ⟨nofun, nofun, fun _ f hf => ?_, nofun, nofun⟩
    rw [hfile] at hf
    cases hf
  | some f =>
    have hf : f ∈ k.file := hfile
    simp only [afterStat]
    split
    · rename_i hsize
      refine ⟨nofun, nofun, nofun, nofun, fun _ => ?_⟩
      rw [hfile, hfull f hf hsize]
    · refine ⟨nofun, nofun, fun heq f' hf' => ?_, nofun, nofun⟩
      obtain rfl : f = f' := Option.some.inj (hfile.symm.trans hf')
      exact Nat.not_lt.mp (of_decide_eq_false (Phase.opening.inj heq))

omit [DecidableEq D] in
theorem full_setData {ino : Nat} {f : File}
    (hfull : ∀ f ∈ k.file, f.length = b.size → f = b.content)
    (hf : k.path = some ino → f.length = b.size → f = b.content) :
    ∀ f' ∈ (k.setData ino f).file, f'.length = b.size → f' = b.content := by
  intro f' hf'
  by_cases hpath : k.path = some ino
  · rw [file_setData_self hpath] at hf'
    obtain rfl := Option.some.inj hf'
    exact hf hpath
  · rw [file_setData_ne hpath] at hf'
    exact hfull f' hf'

omit [DecidableEq D] in
theorem nil_eq_content (h : ([] : File).length = b.size) : [] = b.content :=
  (List.eq_nil_of_length_eq_zero h.symm).symm

omit [DecidableEq D] in
/-- A file that no call relies on is emptied. -/
theorem Sound.setNil {s : State} (h : Sound b s.disk ph) (hmem : ph ∈ s.calls) {ino : Nat}
    (hspared : s.disk.path = some ino → Spared b s) : Sound b (s.disk.setData ino []) ph := by
  refine h.setData (Nat.zero_le _) ?_ ?_
  · intro hpath r hr j hj
    rcases hspared hpath with hempty | ⟨-, hnone⟩
    · obtain ⟨hpath', hdata⟩ := h.agrees r hr
      rw [file_eq hpath'] at hempty
      rw [← hdata j hj, Option.some.inj hempty]
    · rw [hnone ph hmem r hr] at hj
      exact absurd hj (Nat.not_lt_zero j)
  · intro hpath heq
    rcases hspared hpath with hempty | ⟨hnone, -⟩
    · exact Option.some.inj (hempty.symm.trans (h.returned heq))
    · exact absurd (heq ▸ hmem) hnone

omit [DecidableEq D] in
/-- A call that opens the file has written nothing yet. -/
theorem sound_opened {ino : Nat} (hpath : k.path = some ino)
    (hlen : (k.data ino).length ≤ b.size) :
    Sound b k (if b.size = 0 then .returned true else .copying ino []) := by
  split
  · rename_i hsize
    refine .mk nofun nofun nofun nofun fun _ => ?_
    rw [file_eq hpath]
    have hnil : k.data ino = [] := List.eq_nil_of_length_eq_zero (by omega)
    rw [hnil, nil_eq_content hsize.symm]
  · rename_i hsize
    refine .mk ?_ ?_ nofun ?_ nofun
    · rintro ino' hmem
      obtain rfl := Option.some.inj hmem
      exact hlen
    · rintro ino' written heq
      obtain ⟨rfl, rfl⟩ := Phase.copying.inj heq
      exact ⟨Nat.zero_le _, fun hlength => absurd hlength.symm hsize⟩
    · intro r hr
      rw [Phase.progress, if_pos (List.nil_prefix)] at hr
      obtain rfl := Option.some.inj hr
      exact ⟨hpath, fun j hj => absurd hj (Nat.not_lt_zero j)⟩

omit [DecidableEq D] in
theorem Inv.open {s : State} (hinv : Inv b s) {i : Nat} {trunc : Bool}
    (hcall : s.calls[i]? = some (.opening trunc)) (hspared : trunc = true → Spared b s) :
    Inv b ⟨(s.disk.openFile trunc).1, s.calls.set i
      (if b.size = 0 then .returned true else .copying (s.disk.openFile trunc).2 [])⟩ := by
  have hmem := List.mem_of_getElem? hcall
  simp only [Disk.openFile]
  cases hpath : s.disk.path with
  | none =>
    refine Inv.set (fun f hf hsize => ?_) (fun ph hph => (hinv.calls ph hph).create hpath _)
      (sound_opened rfl ?_)
    · obtain rfl : (s.disk.setData s.disk.next []).data s.disk.next = f := Option.some.inj hf
      rw [data_setData_self] at hsize ⊢
      exact nil_eq_content hsize
    · show ((s.disk.setData s.disk.next []).data s.disk.next).length ≤ _
      rw [data_setData_self]
      exact Nat.zero_le _
  | some ino =>
    cases trunc with
    | false =>
      refine Inv.set hinv.full hinv.calls (sound_opened hpath ?_)
      exact (hinv.calls _ hmem).opening rfl _ (file_eq hpath)
    | true =>
      refine Inv.set (full_setData hinv.full fun _ hsize => nil_eq_content hsize)
        (fun ph hph => (hinv.calls ph hph).setNil hph fun _ => hspared rfl)
        (sound_opened hpath ?_)
      show ((s.disk.setData ino []).data ino).length ≤ _
      rw [data_setData_self]
      exact Nat.zero_le _

/-! ## A write -/

omit [DecidableEq D] in
theorem eq_content {f : File} (hlen : f.length ≤ b.size)
    (h : ∀ j < b.size, f[j]? = b.content[j]?) : f = b.content := by
  refine List.ext_getElem? fun j => ?_
  by_cases hj : j < b.size
  · exact h j hj
  · rw [List.getElem?_eq_none (by omega), List.getElem?_eq_none (Nat.not_lt.mp hj)]

omit [DecidableEq D] in
theorem progress_le {r : Nat × Nat} (h : r ∈ ph.progress b.content) : r.2 ≤ b.size := by
  cases ph with
  | copying ino written =>
    rw [Phase.progress] at h
    split at h
    · rename_i hprefix
      obtain rfl := Option.some.inj h
      exact hprefix.length_le
    · cases h
  | closing ino =>
    obtain rfl := Option.some.inj h
    exact le_rfl
  | _ => cases h

omit [DecidableEq D] in
/-- The file of a call that may still succeed is as long as what the call has written. -/
theorem Sound.lt_length (h : Sound b k ph) {r : Nat × Nat} (hr : r ∈ ph.progress b.content)
    {j : Nat} (hj : j < r.2) : j < (k.data r.1).length := by
  have hlt : j < b.content.length := hj.trans_le (progress_le hr)
  have hget := (h.agrees r hr).2 j hj
  rw [List.getElem?_eq_getElem hlt] at hget
  exact (List.getElem?_eq_some_iff.mp hget).1

theorem Blob.bytes_prefix {written p : File} {cut : Option Nat} : b.bytes written p cut <+: p := by
  rw [Blob.bytes]
  split
  · cases cut with
    | none => exact List.prefix_rfl
    | some n => exact List.take_prefix n p
  · exact List.nil_prefix

theorem Blob.length_bytes {written p : File} {cut : Option Nat}
    (hwritten : written.length ≤ b.size) :
    written.length + (b.bytes written p cut).length ≤ b.size := by
  by_cases hcheck : b.check written p = true
  · have hle : written.length + p.length ≤ b.size := by
      rw [Blob.check, Bool.and_eq_true] at hcheck
      exact of_decide_eq_true hcheck.2
    have hprefix : (b.bytes written p cut).length ≤ p.length := Blob.bytes_prefix.length_le
    omega
  · rw [Blob.bytes, if_neg hcheck]
    exact hwritten

/-- Bytes that complete the file complete the text of a reader. -/
theorem Blob.append_of_check {written p : File} (hcheck : b.check written p = true)
    (hunique : (written ++ p).length = b.size → b.sum (written ++ p) = b.digest →
      written ++ p = b.content) (hsize : written.length + p.length = b.size) :
    written ++ p = b.content := by
  rw [Blob.check, Bool.and_eq_true, Bool.or_eq_true] at hcheck
  rw [← List.length_append] at hsize
  rcases hcheck.1 with hne | hsum
  · exact absurd (List.length_append ▸ hsize) (of_decide_eq_true hne)
  · exact hunique hsize (of_decide_eq_true hsum)

theorem Blob.append_bytes {written p : File} {cut : Option Nat}
    (hwritten : written.length = b.size → written = b.content)
    (hunique : (written ++ p).length = b.size → b.sum (written ++ p) = b.digest →
      written ++ p = b.content)
    (hsize : written.length + (b.bytes written p cut).length = b.size) :
    written ++ b.bytes written p cut = b.content := by
  by_cases hcheck : b.check written p = true
  · -- all of the read bytes are written, as they fit
    have hle : written.length + p.length ≤ b.size := by
      rw [Blob.check, Bool.and_eq_true] at hcheck
      exact of_decide_eq_true hcheck.2
    have hprefix : b.bytes written p cut <+: p := Blob.bytes_prefix
    have hall : b.bytes written p cut = p :=
      hprefix.eq_of_length (by have := hprefix.length_le; omega)
    rw [hall] at hsize ⊢
    exact Blob.append_of_check hcheck hunique hsize
  · rw [Blob.bytes, if_neg hcheck] at hsize ⊢
    rw [List.append_nil]
    exact hwritten hsize

section Write

variable {s : State} {ino : Nat} {written q : File}

omit [DecidableEq D] in
/-- A call that may still succeed keeps what it has written. -/
theorem Inv.kept (hinv : Inv b s) (hcareful : CarefulBytes b s ino written q)
    (hpath : s.disk.path = some ino) (hph : ph ∈ s.calls) {r : Nat × Nat}
    (hr : r ∈ ph.progress b.content) {j : Nat} (hj : j < r.2) :
    ((s.disk.data ino).write written.length q)[j]? = b.content[j]? := by
  obtain ⟨hpath', hright⟩ := (hinv.calls ph hph).agrees r hr
  obtain rfl := Option.some.inj (hpath.symm.trans hpath')
  by_cases hin : written.length ≤ j ∧ j < written.length + q.length
  · rw [File.getElem?_write_self _ hin.1 hin.2]
    rcases hcareful hpath (j - written.length) (by omega) with hget | ⟨-, hbehind⟩
    · rw [hget]
      congr 1
      omega
    · have := hbehind ph hph r hr
      omega
  · rw [File.getElem?_write_other _ (by omega) ((hinv.calls ph hph).lt_length hr hj)]
    exact hright j hj

omit [DecidableEq D] in
/-- A file that is complete stays the blob. -/
theorem Inv.write_complete (hinv : Inv b s) (hcareful : CarefulBytes b s ino written q)
    (hpath : s.disk.path = some ino)
    (hlen : ((s.disk.data ino).write written.length q).length ≤ b.size)
    (hsize : (s.disk.data ino).length = b.size) :
    (s.disk.data ino).write written.length q = b.content := by
  have hblob := hinv.full _ (file_eq hpath) hsize
  refine eq_content hlen fun j hj => ?_
  by_cases hin : written.length ≤ j ∧ j < written.length + q.length
  · rw [File.getElem?_write_self _ hin.1 hin.2]
    rcases hcareful hpath (j - written.length) (by omega) with hget | ⟨hne, -⟩
    · rw [hget]
      congr 1
      omega
    · exact absurd hsize hne
  · rw [File.getElem?_write_other _ (by omega) (by omega), hblob]

omit [DecidableEq D] in
theorem progress_copying (h : written <+: b.content) :
    (ino, written.length) ∈ (Phase.copying ino written).progress b.content := by
  rw [Phase.progress, if_pos h]
  exact rfl

omit [DecidableEq D] in
/-- The call that completes the file has read the blob, and written all of it. -/
theorem Inv.write_completes (hinv : Inv b s) (hcareful : CarefulBytes b s ino written q)
    (hpath : s.disk.path = some ino) (hcall : .copying ino written ∈ s.calls)
    (hlen : ((s.disk.data ino).write written.length q).length ≤ b.size)
    (happend : written ++ q = b.content) :
    (s.disk.data ino).write written.length q = b.content := by
  have hsize : written.length + q.length = b.size := by
    rw [← List.length_append, happend]
    rfl
  refine eq_content hlen fun j hj => ?_
  by_cases hin : written.length ≤ j
  · rw [File.getElem?_write_self _ hin (by omega), ← happend, List.getElem?_append_right hin]
  · exact hinv.kept hcareful hpath hcall (progress_copying ⟨_, happend⟩) (Nat.not_le.mp hin)

omit [DecidableEq D] in
/-- The call that has written goes on. -/
theorem Inv.sound_written (hinv : Inv b s) (hcareful : CarefulBytes b s ino written q)
    (hcall : .copying ino written ∈ s.calls)
    (hlen : ((s.disk.data ino).write written.length q).length ≤ b.size)
    (hend : written.length + q.length ≤ b.size)
    (hall : written.length + q.length = b.size → written ++ q = b.content) :
    Sound b (s.disk.setData ino ((s.disk.data ino).write written.length q))
      (.copying ino (written ++ q)) := by
  refine .mk ?_ ?_ nofun ?_ nofun
  · intro ino' hmem
    obtain rfl := Option.some.inj hmem
    rw [data_setData_self]
    exact hlen
  · intro ino' written' heq
    obtain ⟨rfl, rfl⟩ := Phase.copying.inj heq
    rw [List.length_append]
    exact ⟨hend, hall⟩
  · intro r hr
    rw [Phase.progress] at hr
    split at hr
    · rename_i hprefix
      obtain rfl := Option.some.inj hr
      have hprogress : (ino, written.length) ∈ (Phase.copying ino written).progress b.content :=
        progress_copying ((List.prefix_append written q).trans hprefix)
      have hpath := ((hinv.calls _ hcall).agrees _ hprogress).1
      refine ⟨hpath, fun j hj => ?_⟩
      rw [data_setData_self]
      rw [List.length_append] at hj
      by_cases hin : written.length ≤ j
      · rw [File.getElem?_write_self _ hin hj, ← List.getElem?_append_right hin]
        obtain ⟨rest, hrest⟩ := hprefix
        rw [← hrest]
        refine (List.getElem?_append_left ?_).symm
        rw [List.length_append]
        exact hj
      · exact hinv.kept hcareful hpath hcall hprogress (Nat.not_le.mp hin)
    · cases hr

/-- A careful write of one call. -/
theorem Inv.read (hinv : Inv b s) {i : Nat} {p : File} {cut : Option Nat}
    (hcall : s.calls[i]? = some (.copying ino written))
    (hunique : (written ++ p).length = b.size → b.sum (written ++ p) = b.digest →
      written ++ p = b.content)
    (hcareful : CarefulBytes b s ino written (b.bytes written p cut)) :
    Inv b ⟨s.disk.setData ino
        ((s.disk.data ino).write written.length (b.bytes written p cut)), s.calls.set i
      (if b.check written p = true ∧ cut = none then .copying ino (written ++ p)
        else .failed ino)⟩ := by
  have hmem := List.mem_of_getElem? hcall
  have hdata := (hinv.calls _ hmem).bounded ino rfl
  obtain ⟨hwritten, hcontent⟩ := (hinv.calls _ hmem).written ino written rfl
  have hend : written.length + (b.bytes written p cut).length ≤ b.size :=
    Blob.length_bytes hwritten
  have hlen := File.length_write_le (s.disk.data ino) written.length _ hdata hend
  refine Inv.set (full_setData hinv.full fun hpath hsize => ?_) (fun ph hph => ?_) ?_
  · rcases File.length_write_eq hsize with hsize | hsize
    · exact hinv.write_complete hcareful hpath hlen hsize
    · exact hinv.write_completes hcareful hpath hmem hlen
        (Blob.append_bytes hcontent hunique hsize)
  · refine (hinv.calls ph hph).setData hlen
      (fun hpath r hr j hj => hinv.kept hcareful hpath hph hr hj) fun hpath heq => ?_
    have hfile := (hinv.calls ph hph).returned heq
    rw [file_eq hpath] at hfile
    refine hinv.write_complete hcareful hpath hlen ?_
    rw [Option.some.inj hfile]
    rfl
  · split
    · rename_i hgoes
      have hbytes : b.bytes written p cut = p := by
        rw [Blob.bytes, if_pos hgoes.1, hgoes.2]
        rfl
      rw [hbytes] at hend hlen hcareful ⊢
      exact hinv.sound_written hcareful hmem hlen hend
        (Blob.append_of_check hgoes.1 hunique)
    · exact sound_failed ino

end Write

/-! ## Runs -/

theorem step_inv {s s' : State} {a : Label} (hinv : Inv b s) (hcareful : Careful b s a)
    (henabled : Enabled b s a) (hstep : step b s a = some s') : Inv b s' := by
  cases a with
  | put =>
    obtain rfl := Option.some.inj hstep
    refine ⟨hinv.full, fun ph hph => ?_⟩
    rcases List.mem_append.mp hph with hold | hnew
    · exact hinv.calls ph hold
    · obtain rfl := List.mem_singleton.mp hnew
      exact .of_idle rfl nofun rfl nofun
  | stat i =>
    simp only [step] at hstep
    split at hstep
    · obtain rfl := Option.some.inj hstep
      exact hinv.setCall (sound_afterStat hinv.full)
    · cases hstep
  | «open» i ok =>
    simp only [step] at hstep
    split at hstep
    · rename_i trunc hcall
      split at hstep
      · obtain rfl := Option.some.inj hstep
        exact hinv.setCall sound_returned_false
      · rename_i hok
        obtain rfl := Option.some.inj hstep
        refine hinv.open hcall fun htrunc => ?_
        exact hcareful (Bool.eq_true_of_not_eq_false hok) (htrunc ▸ hcall)
    · cases hstep
  | read i p cut =>
    simp only [step] at hstep
    split at hstep
    · rename_i ino written hcall
      obtain rfl := Option.some.inj hstep
      have hcopied : (ino, written) ∈ s.calls[i]?.bind Phase.copied := by
        rw [hcall]
        exact rfl
      exact hinv.read hcall (henabled.2 _ hcopied) (hcareful _ hcopied)
    · cases hstep
  | readError i =>
    simp only [step] at hstep
    split at hstep
    · obtain rfl := Option.some.inj hstep
      exact hinv.setCall (sound_failed _)
    · cases hstep
  | eof i =>
    simp only [step] at hstep
    split at hstep
    · rename_i ino written hcall
      obtain rfl := Option.some.inj hstep
      refine hinv.setCall ?_
      split
      · exact sound_failed ino
      · rename_i hsize
        have hsound := hinv.calls _ (List.mem_of_getElem? hcall)
        obtain ⟨hle, hcontent⟩ := hsound.written ino written rfl
        -- the call has read all of the blob
        have hall := hcontent (by omega)
        refine .mk hsound.bounded nofun nofun (fun r hr => hsound.agrees r ?_) nofun
        rw [Phase.progress, if_pos (hall ▸ List.prefix_rfl), hall]
        exact hr
    · cases hstep
  | truncate i ok =>
    simp only [step] at hstep
    split at hstep
    · rename_i ino hcall
      obtain rfl := Option.some.inj hstep
      have hspoilt : ino ∈ s.calls[i]?.bind Phase.spoilt := by
        rw [hcall]
        exact rfl
      split
      · rename_i hok
        exact Inv.set (full_setData hinv.full fun _ hsize => nil_eq_content hsize)
          (fun ph hph => (hinv.calls ph hph).setNil hph fun hpath => hcareful ino hspoilt hok hpath)
          sound_returned_false
      · exact Inv.set hinv.full hinv.calls sound_returned_false
    · cases hstep
  | close i ok =>
    simp only [step] at hstep
    split at hstep
    · rename_i ino hcall
      obtain rfl := Option.some.inj hstep
      refine hinv.setCall ?_
      split
      · have hsound := hinv.calls _ (List.mem_of_getElem? hcall)
        obtain ⟨hpath, hdata⟩ := hsound.agrees (ino, b.size) rfl
        refine .mk nofun nofun nofun nofun fun _ => ?_
        rw [file_eq hpath, eq_content (hsound.bounded ino rfl) hdata]
      · exact .of_idle rfl nofun rfl nofun
    · cases hstep
  | remove i ok =>
    simp only [step] at hstep
    split at hstep
    · obtain rfl := Option.some.inj hstep
      split
      · rename_i hok
        obtain ⟨hnone, hprogress⟩ := hcareful hok
        refine Inv.set nofun (fun ph hph => (hinv.calls ph hph).remove (hprogress ph hph) ?_)
          sound_returned_false
        rintro rfl
        exact hnone hph
      · exact Inv.set hinv.full hinv.calls sound_returned_false
    · cases hstep

theorem inv_invariant (b : Blob D) : ((sys b).restrict (Careful b)).Invariant (Inv b) := by
  refine TSys.Inductive.invariant ⟨?_, ?_⟩
  · rintro s ⟨hcalls, -, hfull⟩
    refine ⟨hfull, fun ph hph => ?_⟩
    rw [hcalls] at hph
    cases hph
  · rintro s a s' hinv ⟨hcareful, henabled, hstep⟩
    exact step_inv hinv hcareful henabled hstep

/-- In every run whose steps are careful a file of the blob's size is the blob, and the
file is there once a call has returned nil. -/
theorem concurrent_put {b : Blob D} {s : State}
    (h : ((sys b).restrict (Careful b)).Reachable s) :
    (∀ f ∈ s.disk.file, f.length = b.size → b.sum f = b.digest) ∧
      (.returned true ∈ s.calls →
        ∃ f ∈ s.disk.file, f.length = b.size ∧ b.sum f = b.digest) := by
  have hinv := inv_invariant b s h
  constructor
  · intro f hf hsize
    rw [hinv.full f hf hsize]
    rfl
  · intro hmem
    exact ⟨b.content, (hinv.calls _ hmem).returned rfl, rfl, rfl⟩

theorem guarded_step (b : Blob D) (s : State) (a : Label) (s' : State)
    (h : TSys.guarded (Enabled b) (step b) s a = some s') : (sys b).step s a s' :=
  TSys.guarded_eq_some.mp h

/-- Two calls have the file open. -/
def bothOpen : List Label :=
  [.put, .put, .stat 0, .stat 1, .open 0 true, .open 1 true]

/-- Four bytes, under a sum that is no shorter. -/
def fourBytes : Blob File := ⟨id, [1, 2, 3, 4]⟩

/-- One call fails before the other has written anything. -/
theorem concurrent_put_fails : ∃ s, ((sys fourBytes).restrict (Careful fourBytes)).Reachable s ∧
    s.calls = [.returned true, .returned false] ∧
    ∃ f ∈ s.disk.file, f.length = 4 ∧ f = [1, 2, 3, 4] := by
  obtain ⟨s, hreach, hcalls⟩ := TSys.Reachable.exists_of_run_restrict
    (G := Careful fourBytes) (P := fun s => s.calls = [.returned true, .returned false])
    (guarded_step fourBytes) (.init (s := ⟨⟨none, fun _ => [], 0⟩, []⟩) ⟨rfl, nofun, nofun⟩)
    (bothOpen ++ [.readError 1, .truncate 1 true, .read 0 [1, 2] none, .read 0 [3, 4] none,
      .eof 0, .close 0 true]) (by decide)
  refine ⟨s, hreach, hcalls, (concurrent_put hreach).2 ?_⟩
  rw [hcalls]
  exact List.mem_cons_self

/-- One call fails when the other has written half of the blob: the other one returns nil,
and the first half of the file are zeros. -/
theorem put_leaves_hole : ∃ s, (sys fourBytes).Reachable s ∧
    s.calls = [.returned true, .returned false] ∧
    ∃ f ∈ s.disk.file, f.length = fourBytes.size ∧ fourBytes.sum f ≠ fourBytes.digest := by
  obtain ⟨s, hreach, hcalls, hfile⟩ := TSys.Reachable.exists_of_run
    (P := fun s => s.calls = [.returned true, .returned false] ∧ s.disk.file = some [0, 0, 3, 4])
    (guarded_step fourBytes) (.init (s := ⟨⟨none, fun _ => [], 0⟩, []⟩) ⟨rfl, nofun, nofun⟩)
    (bothOpen ++ [.read 0 [1, 2] none, .readError 1, .truncate 1 true, .read 0 [3, 4] none,
      .eof 0, .close 0 true]) (by decide)
  exact ⟨s, hreach, hcalls, _, hfile, by decide, by decide⟩

end ConcurrentPut

end Prismalama.Ollama
