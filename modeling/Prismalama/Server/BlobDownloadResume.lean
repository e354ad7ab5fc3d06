import Prismalama.Server.BlobDownload

/-!
# Resuming a download (`server/download.go`)

`Prepare` takes the parts from the part files that are there. They are those of the whole
blob where no attempt has ended while they were created, written or removed, and then the
renamed file is the blob (`resume_sound`). Behind an attempt that has ended there, they are
some of the parts, or do not decode (`resume_unsound`).
-/

namespace Prismalama.Server.BlobDownload

open Prismalama.Lib Prismalama.Ollama

/-! ## The condition -/

/-- Every part file has been written. -/
def Disk.NoTorn (k : Disk) : Prop := ∀ n ∈ k.parts.keys, AList.lookup n k.parts ≠ some none

instance (k : Disk) : Decidable k.NoTorn := inferInstanceAs (Decidable (∀ n ∈ _, _))

/-- The part files are not being created or removed. -/
def Phase.between : Phase → Bool
  | .creating ps _ _ => ps.isEmpty
  | .cleaning n i => i == 0 || i == n
  | _ => true

def Phase.gs : Phase → List Goroutine
  | .running gs => gs
  | _ => []

def Goroutine.received (g : Goroutine) : Option File :=
  match g.phase with
  | .copying received => some received
  | _ => none

def Finish.credits : Finish → Bool
  | .full => true
  | .resumable _ => true
  | .error _ => false

/-- The registry has told the length of the blob, what a chunk adds to its part is the
blob's, and an attempt ends when each part file is there and written, or none is. -/
def Careful (blob : File) (s : State) : Label → Prop
  | .head length => length = blob.length
  | .chunk i (.finish r) => r.credits = true → ∀ g ∈ s.phase.gs[i]?, ∀ received ∈ g.received,
      received = (blob.drop g.part.startsAt).take received.length
  | .wait => (∃ g ∈ s.phase.gs, g.phase ≠ .returned true) → s.disk.NoTorn
  | .stop => s.disk.NoTorn ∧ s.phase.between = true
  | _ => True

instance (blob : File) (s : State) (a : Label) : Decidable (Careful blob s a) := by
  unfold Careful
  split <;> infer_instance

/-! ## The parts of a blob -/

/-- The first parts, as the loop of `Prepare` makes them. -/
inductive Built (total : Nat) : List Part → Prop
  | nil : Built total []
  | snoc {ps} : Built total ps → sumSizes ps < total → Built total (ps ++ [newPart total ps])

def Full (total : Nat) (ps : List Part) : Prop := Built total ps ∧ sumSizes ps = total

theorem sumSizes_append_singleton (ps : List Part) (p : Part) :
    sumSizes (ps ++ [p]) = sumSizes ps + p.size := by
  rw [sumSizes, List.map_append, List.sum_append, List.map_singleton, List.sum_singleton]
  rfl

theorem partSize_pos (total : Nat) : 0 < partSize total := by
  have hmin : 0 < minDownloadPartSize := by decide
  have hmax : 0 < maxDownloadPartSize := by decide
  simp only [partSize]
  split
  · exact hmin
  · split
    · exact hmax
    · omega

theorem newPart_size {total : Nat} {ps : List Part} (hlt : sumSizes ps < total) :
    0 < (newPart total ps).size ∧ sumSizes ps + (newPart total ps).size ≤ total := by
  have hpos := partSize_pos total
  simp only [newPart]
  split <;> omega

theorem of_getElem?_snoc {α : Type*} {l : List α} {a b : α} {i : Nat}
    (h : (l ++ [a])[i]? = some b) : l[i]? = some b ∨ i = l.length ∧ a = b := by
  rw [List.getElem?_append] at h
  split at h
  · exact .inl h
  · obtain ⟨hlt, hb⟩ := List.getElem?_eq_some_iff.mp h
    rw [List.length_singleton] at hlt
    rw [List.getElem_singleton] at hb
    exact .inr ⟨by omega, hb⟩

variable {total : Nat} {ps : List Part}

theorem Built.sumSizes_le (hb : Built total ps) : sumSizes ps ≤ total := by
  cases hb with
  | nil => exact Nat.zero_le _
  | snoc _ hlt =>
    rw [sumSizes_append_singleton]
    exact (newPart_size hlt).2

theorem Built.get (hb : Built total ps) {i : Nat} {p : Part} (hi : ps[i]? = some p) :
    p.n = i ∧ p.completed = 0 ∧ 0 < p.size ∧ p.stopsAt ≤ sumSizes ps := by
  induction hb with
  | nil => cases hi
  | @snoc ps hb hlt ih =>
    rw [sumSizes_append_singleton]
    rcases of_getElem?_snoc hi with hi | ⟨rfl, rfl⟩
    · obtain ⟨hn, hc, hpos, hstop⟩ := ih hi
      exact ⟨hn, hc, hpos, hstop.trans (Nat.le_add_right _ _)⟩
    · exact ⟨rfl, rfl, (newPart_size hlt).1, le_rfl⟩

/-- Each byte is in a part. -/
theorem Built.cover (hb : Built total ps) {x : Nat} (hx : x < sumSizes ps) :
    ∃ p ∈ ps, p.offset ≤ x ∧ x < p.stopsAt := by
  induction hb with
  | nil => exact absurd hx (Nat.not_lt_zero x)
  | @snoc ps hb hlt ih =>
    rw [sumSizes_append_singleton] at hx
    by_cases hold : x < sumSizes ps
    · obtain ⟨p, hmem, hin⟩ := ih hold
      exact ⟨p, List.mem_append_left _ hmem, hin⟩
    · exact ⟨_, List.mem_append_right _ (List.mem_singleton_self _), not_lt.mp hold, hx⟩

/-- A part ends where a later one begins, or before. -/
theorem Built.disjoint (hb : Built total ps) {i j : Nat} {p q : Part} (hi : ps[i]? = some p)
    (hj : ps[j]? = some q) (hlt : i < j) : p.stopsAt ≤ q.offset := by
  induction hb with
  | nil => cases hi
  | @snoc ps hb hsum ih =>
    rcases of_getElem?_snoc hi with hi | ⟨hi, -⟩ <;> rcases of_getElem?_snoc hj with hj | ⟨hj, rfl⟩
    · exact ih hi hj
    · exact (hb.get hi).2.2.2
    · have hlt' := (List.getElem?_eq_some_iff.mp hj).1
      omega
    · omega

theorem Built.length_le (hb : Built total ps) : ps.length ≤ sumSizes ps := by
  induction hb with
  | nil => exact Nat.le_refl _
  | @snoc ps hb hlt ih =>
    rw [sumSizes_append_singleton, List.length_append, List.length_singleton]
    exact Nat.add_le_add ih (newPart_size hlt).1

/-! ## The invariant -/

/-- A part as it was made. -/
def Part.fresh (p : Part) : Part := { p with completed := 0 }

section

variable (blob : File)

/-- Two texts have the same bytes from `lo` to `hi`. -/
def Agrees (f : File) (lo hi : Nat) : Prop := ∀ x, lo ≤ x → x < hi → f[x]? = blob[x]?

/-- What a part has completed is in the file. -/
def Part.Good (f : File) (p : Part) : Prop :=
  p.completed ≤ p.size ∧ Agrees blob f p.offset p.startsAt

/-- The part files from `i` on are there, and no others. -/
structure Files (f : File) (shape : List Part) (i : Nat) (parts : GoMap Nat (Option Part)) :
    Prop where
  get : ∀ n q, i ≤ n → shape[n]? = some q →
    ∃ e, AList.lookup n parts = some e ∧ ∀ p ∈ e, p.fresh = q ∧ p.Good blob f
  none : ∀ n, n < i ∨ shape.length ≤ n → AList.lookup n parts = none

/-- What an attempt finds. -/
def Settled (k : Disk) : Prop :=
  (∀ n, AList.lookup n k.parts = none) ∨
    ∃ shape, Full blob.length shape ∧ Files blob k.file shape 0 k.parts ∧ k.NoTorn

/-- The parts are those of the files. -/
def Ready (k : Disk) (ps : List Part) : Prop :=
  ∃ shape, Full blob.length shape ∧ Files blob k.file shape 0 k.parts ∧ k.NoTorn ∧
    (ps.map (·.n)).Perm (List.range shape.length) ∧
    ∀ p ∈ ps, AList.lookup p.n k.parts = some (some p)

/-- What a part is while it is copied. `clean` is whether there was no error. -/
structure Goroutine.Ok (shape : List Part) (k : Disk) (clean : Bool) (g : Goroutine) : Prop where
  shape : shape[g.part.n]? = some g.part.fresh
  good : g.part.Good blob k.file
  disk : ∀ p, AList.lookup g.part.n k.parts = some (some p) → p.completed ≤ g.part.completed
  copying : ∀ received ∈ g.received, g.part.completed + received.length ≤ g.part.size ∧
    ∀ j < received.length, k.file[g.part.startsAt + j]? = received[j]?
  opening : ∀ err, g.phase = .opening err →
    (err = none → g.part.completed = g.part.size) ∧ (clean = true → err = none)
  rewriting : ∀ err, g.phase = .rewriting err →
    (err = none → g.part.completed = g.part.size) ∧ (clean = true → err = none)
  returned : ∀ ok, g.phase = .returned ok →
    (ok = true → g.part.completed = g.part.size) ∧ (clean = true → ok = true)

structure Running (shape : List Part) (k : Disk) (clean : Bool) (gs : List Goroutine) :
    Prop where
  data : k.data ≠ none
  full : Full blob.length shape
  files : Files blob k.file shape 0 k.parts
  names : (gs.map (·.part.n)).Perm (List.range shape.length)
  ok : ∀ g ∈ gs, g.Ok blob shape k clean

def PhaseInv (k : Disk) (clean : Bool) : Phase → Prop
  | .stopped => Settled blob k ∧ clean = false
  | .preparing => Settled blob k
  | .heading => ∀ n, AList.lookup n k.parts = none
  | .creating ps total opened => total = blob.length ∧ Built total ps ∧ sumSizes ps < total ∧
      ∀ n, AList.lookup n k.parts =
        if n = ps.length then (if opened = true then some none else none) else ps[n]?.map some
  | .prepared ps total => total = blob.length ∧ Ready blob k ps
  | .opened ps total => total = blob.length ∧ Ready blob k ps ∧ k.data ≠ none
  | .resolving ps => Ready blob k ps ∧ k.data ≠ none
  | .running gs => ∃ shape, Running blob shape k clean gs
  | .cleaning n i => k.data = some blob ∧ i ≤ n ∧ ∃ shape, Full blob.length shape ∧
      shape.length = n ∧ Files blob k.file shape i k.parts
  | .finished => Settled blob k ∧ k.final = some blob

structure Inv (s : State) : Prop where
  length : s.disk.file.length ≤ blob.length
  final : ∀ f ∈ s.disk.final, f = blob
  phase : PhaseInv blob s.disk s.clean s.phase

end

variable {blob : File} {k k' : Disk} {clean : Bool}

/-! ## Preparing -/

theorem toPart_of_files {f : File} {shape : List Part} {parts : GoMap Nat (Option Part)}
    (hfull : Full blob.length shape) (hfiles : Files blob f shape 0 parts) {n : Nat} {p : Part}
    (hp : AList.lookup n parts = some (some p)) :
    p.n = n ∧ shape[n]? = some p.fresh ∧ p.Good blob f := by
  have hlt : n < shape.length := by
    by_contra hge
    rw [hfiles.none n (.inr (not_lt.mp hge))] at hp
    cases hp
  have hget : shape[n]? = some shape[n] := List.getElem?_eq_getElem hlt
  obtain ⟨e, he, hgood⟩ := hfiles.get n _ (Nat.zero_le n) hget
  obtain rfl := Option.some.inj (he.symm.trans hp)
  obtain ⟨hfresh, hgood⟩ := hgood p rfl
  rw [← hfresh] at hget
  exact ⟨(hfull.1.get hget).1, hget, hgood⟩

/-- What is read is what is in the files, in the order of the names. -/
theorem mapM_readPart {parts : GoMap Nat (Option Part)} {names : List Nat}
    (h : ∀ n ∈ names, ∃ p, AList.lookup n parts = some (some p) ∧ p.n = n) :
    ∃ ps, (names.mapM fun n => (AList.lookup n parts).join) = some ps ∧
      ps.map (·.n) = names ∧ ∀ p ∈ ps, AList.lookup p.n parts = some (some p) := by
  induction names with
  | nil => exact ⟨[], rfl, rfl, nofun⟩
  | cons n rest ih =>
    obtain ⟨p, hp, hn⟩ := h n List.mem_cons_self
    obtain ⟨ps, hps, hnames, hall⟩ := ih fun n' hn' => h n' (List.mem_cons_of_mem _ hn')
    refine ⟨p :: ps, ?_, ?_, ?_⟩
    · rw [List.mapM_cons, hp, hps]
      rfl
    · rw [List.map_cons, hn, hnames]
    · intro p' hmem
      rcases List.mem_cons.mp hmem with rfl | hmem
      · rw [hn]
        exact hp
      · exact hall p' hmem

theorem readParts_of_none (h : ∀ n, AList.lookup n k.parts = none) : k.readParts = some [] := by
  rw [Disk.readParts, Disk.glob, GoMap.eq_empty h]
  rfl

theorem readParts_ready {shape : List Part} (hfull : Full blob.length shape)
    (hfiles : Files blob k.file shape 0 k.parts) (htorn : k.NoTorn) :
    ∃ ps, k.readParts = some ps ∧ Ready blob k ps := by
  have hkeys : ∀ n, n ∈ k.parts.keys ↔ n < shape.length := by
    intro n
    rw [GoMap.mem_keys_iff]
    constructor
    · rintro ⟨v, hv⟩
      by_contra hge
      rw [hfiles.none n (.inr (not_lt.mp hge))] at hv
      cases hv
    · intro hlt
      obtain ⟨e, he, -⟩ := hfiles.get n _ (Nat.zero_le n) (List.getElem?_eq_getElem hlt)
      exact ⟨e, he⟩
  have hglob : k.glob.Perm k.parts.keys := List.perm_insertionSort _ _
  obtain ⟨ps, hps, hnames, hall⟩ := @mapM_readPart k.parts k.glob fun n hn => by
    have hmem := hglob.mem_iff.mp hn
    obtain ⟨e, he, -⟩ := hfiles.get n _ (Nat.zero_le n)
      (List.getElem?_eq_getElem ((hkeys n).mp hmem))
    cases e with
    | none => exact absurd he (htorn n hmem)
    | some p => exact ⟨p, he, (toPart_of_files hfull hfiles he).1⟩
  refine ⟨ps, hps, shape, hfull, hfiles, htorn, ?_, hall⟩
  rw [hnames]
  refine hglob.trans ((List.perm_ext_iff_of_nodup k.parts.keys_nodup List.nodup_range).mpr ?_)
  intro n
  rw [hkeys, List.mem_range]

/-- The parts have the sizes of the whole blob. -/
theorem Ready.sizes (hready : Ready blob k ps) :
    ∃ shape, Full blob.length shape ∧ (ps.map (·.size)).Perm (shape.map (·.size)) := by
  obtain ⟨shape, hfull, hfiles, -, hperm, hall⟩ := hready
  refine ⟨shape, hfull, ?_⟩
  have hshape : (List.range shape.length).map (fun n => (shape[n]?.map (·.size)).getD 0) =
      shape.map (·.size) := by
    refine List.ext_getElem (by rw [List.length_map, List.length_map, List.length_range]) ?_
    intro n hn _
    rw [List.length_map, List.length_range] at hn
    rw [List.getElem_map, List.getElem_map, List.getElem_range, List.getElem?_eq_getElem hn]
    rfl
  have hps : ps.map (·.size) = (ps.map (·.n)).map (fun n => (shape[n]?.map (·.size)).getD 0) := by
    rw [List.map_map]
    refine List.map_congr_left fun p hp => ?_
    obtain ⟨-, hget, -⟩ := toPart_of_files hfull hfiles (hall p hp)
    show p.size = (shape[p.n]?.map (·.size)).getD 0
    rw [hget]
    rfl
  rw [hps, ← hshape]
  exact hperm.map _

theorem Ready.sumSizes (hready : Ready blob k ps) : sumSizes ps = blob.length := by
  obtain ⟨shape, hfull, hperm⟩ := hready.sizes
  rw [← hfull.2]
  exact hperm.sum_eq

theorem Ready.length_le (hready : Ready blob k ps) : ps.length ≤ blob.length := by
  obtain ⟨shape, hfull, hperm⟩ := hready.sizes
  have hlen := hperm.length_eq
  rw [List.length_map, List.length_map] at hlen
  rw [hlen, ← hfull.2]
  exact hfull.1.length_le

/-! ## Copying -/

theorem Agrees.write {f p : File} {off lo hi : Nat} (h : Agrees blob f lo hi)
    (hhi : hi ≤ blob.length) (hout : hi ≤ off ∨ off + p.length ≤ lo) :
    Agrees blob (f.write off p) lo hi := by
  intro x hlo hlt
  have hx := h x hlo hlt
  have hlen : x < f.length := by
    rw [List.getElem?_eq_getElem (hlt.trans_le hhi)] at hx
    exact (List.getElem?_eq_some_iff.mp hx).1
  rw [File.getElem?_write_other f (by omega) hlen]
  exact hx

/-- Two parts have no byte in common. -/
theorem disjoint_parts {shape : List Part} (hfull : Full blob.length shape) {p q : Part}
    (hp : shape[p.n]? = some p.fresh) (hq : shape[q.n]? = some q.fresh) (hne : p.n ≠ q.n) :
    p.stopsAt ≤ q.offset ∨ q.stopsAt ≤ p.offset := by
  rcases Nat.lt_or_gt_of_ne hne with hlt | hlt
  · have hle : p.fresh.stopsAt ≤ q.fresh.offset := hfull.1.disjoint hp hq hlt
    exact .inl hle
  · have hle : q.fresh.stopsAt ≤ p.fresh.offset := hfull.1.disjoint hq hp hlt
    exact .inr hle

theorem stopsAt_le {shape : List Part} (hfull : Full blob.length shape) {p : Part}
    (hp : shape[p.n]? = some p.fresh) : p.stopsAt ≤ blob.length :=
  (hfull.1.get hp).2.2.2.trans hfull.2.le

theorem Part.Good.startsAt_le {f : File} {p : Part} (hp : p.Good blob f) :
    p.startsAt ≤ p.stopsAt := Nat.add_le_add_left hp.1 _

variable {shape : List Part} {gs : List Goroutine} {i : Nat} {g g' : Goroutine} {clean' : Bool}

namespace Goroutine.Ok

/-- What a goroutine is does not depend on more of the files than this. -/
theorem congr (hg : g.Ok blob shape k clean)
    (hgood : ∀ x, g.part.offset ≤ x → x < g.part.stopsAt → x < k.file.length →
      k'.file[x]? = k.file[x]?)
    (hdisk : AList.lookup g.part.n k'.parts = AList.lookup g.part.n k.parts)
    (hfull : Full blob.length shape) (hclean : clean' = true → clean = true) :
    g.Ok blob shape k' clean' := by
  have hstop := stopsAt_le hfull hg.shape
  have hstart := hg.good.startsAt_le
  refine ⟨hg.shape, ⟨hg.good.1, ?_⟩, ?_, ?_, ?_, ?_, ?_⟩
  · intro x hlo hlt
    have hx := hg.good.2 x hlo hlt
    have hblob : x < blob.length := by omega
    have hlen : x < k.file.length := by
      rw [List.getElem?_eq_getElem hblob] at hx
      exact (List.getElem?_eq_some_iff.mp hx).1
    rw [hgood x hlo (by omega) hlen]
    exact hx
  · rw [hdisk]
    exact hg.disk
  · intro received hr
    obtain ⟨hle, hall⟩ := hg.copying received hr
    refine ⟨hle, fun j hj => ?_⟩
    have hx := hall j hj
    have hlen : g.part.startsAt + j < k.file.length := by
      rw [List.getElem?_eq_getElem hj] at hx
      exact (List.getElem?_eq_some_iff.mp hx).1
    rw [hgood _ (by rw [Part.startsAt]; omega) (by rw [Part.startsAt, Part.stopsAt]; omega) hlen]
    exact hx
  · exact fun err herr => ⟨(hg.opening err herr).1, fun hc => (hg.opening err herr).2 (hclean hc)⟩
  · exact fun err herr => ⟨(hg.rewriting err herr).1, fun hc => (hg.rewriting err herr).2 (hclean hc)⟩
  · exact fun ok hok => ⟨(hg.returned ok hok).1, fun hc => (hg.returned ok hok).2 (hclean hc)⟩

theorem fail (hg : g.Ok blob shape k clean) (f : Failure) : (g.fail f).Ok blob shape k false := by
  have hready : ∀ tries, ({ g with tries := tries, phase := .ready } : Goroutine).Ok blob shape k false :=
    fun tries => ⟨hg.shape, hg.good, hg.disk, nofun, nofun, nofun, nofun⟩
  have hreturned : ({ g with phase := .returned false } : Goroutine).Ok blob shape k false := by
    refine ⟨hg.shape, hg.good, hg.disk, nofun, nofun, nofun, fun ok hok => ?_⟩
    obtain rfl := ChunkPhase.returned.inj hok
    exact ⟨nofun, nofun⟩
  cases f with
  | final => exact hreturned
  | stalled => exact hready g.tries
  | other =>
    rw [Goroutine.fail]
    split
    · exact hready _
    · exact hreturned

/-- An operation that may fail. -/
theorem fails (hg : g.Ok blob shape k clean) {r : Option Failure}
    (hg' : r = none → g'.Ok blob shape k clean) :
    (g.fails r g').Ok blob shape k (clean && !r.isSome) := by
  cases r with
  | none =>
    rw [Option.isSome_none, Bool.not_false, Bool.and_true]
    exact hg' rfl
  | some f =>
    rw [Option.isSome_some, Bool.not_true, Bool.and_false]
    exact hg.fail f

end Goroutine.Ok

theorem Running.set (h : Running blob shape k clean gs) (hi : gs[i]? = some g)
    (hn : g'.part.n = g.part.n) (hdata : k'.data ≠ none)
    (hfiles : Files blob k'.file shape 0 k'.parts)
    (hothers : ∀ g₂ ∈ gs, g₂.part.n ≠ g.part.n → g₂.Ok blob shape k' clean')
    (hg' : g'.Ok blob shape k' clean') : Running blob shape k' clean' (gs.set i g') := by
  have hlt : i < gs.length := (List.getElem?_eq_some_iff.mp hi).1
  refine ⟨hdata, h.full, hfiles, ?_, ?_⟩
  · have hlt' : i < (gs.map (·.part.n)).length := by
      rw [List.length_map]
      exact hlt
    have hget : (gs.map (·.part.n))[i] = g'.part.n := by
      rw [List.getElem_map, hn, (List.getElem?_eq_some_iff.mp hi).2]
    rw [List.map_set, ← hget, List.set_getElem_self]
    exact h.names
  · intro g₂ hmem
    obtain ⟨j, hj⟩ := List.mem_iff_getElem?.mp hmem
    by_cases heq : j = i
    · subst j
      rw [List.getElem?_set_self hlt] at hj
      exact Option.some.inj hj ▸ hg'
    · rw [List.getElem?_set_ne (Ne.symm heq)] at hj
      refine hothers g₂ (List.mem_of_getElem? hj) fun hsame => heq ?_
      have hnodup : (gs.map (·.part.n)).Nodup := h.names.nodup_iff.mpr List.nodup_range
      have hlt' : j < (gs.map (·.part.n)).length := by
        rw [List.length_map]
        exact (List.getElem?_eq_some_iff.mp hj).1
      refine (List.getElem?_inj hlt' hnodup).mp ?_
      rw [List.getElem?_map, List.getElem?_map, hi, hj]
      exact congrArg some hsame

/-- A step that leaves the files alone. -/
theorem Running.quiet (h : Running blob shape k clean gs) (hi : gs[i]? = some g)
    (hn : g'.part.n = g.part.n) (hclean : clean' = true → clean = true)
    (hg' : g'.Ok blob shape k clean') : Running blob shape k clean' (gs.set i g') :=
  h.set hi hn h.data h.files
    (fun g₂ hmem _ => (h.ok g₂ hmem).congr (fun _ _ _ _ => rfl) rfl h.full hclean) hg'

/-- A part file is opened or written. -/
theorem Running.setPart (h : Running blob shape k clean gs) (hi : gs[i]? = some g)
    (hn : g'.part.n = g.part.n) {v : Option Part} (hv : ∀ p ∈ v, p = g.part)
    (hg' : g'.Ok blob shape (k.setPart g.part.n v) clean) :
    Running blob shape (k.setPart g.part.n v) clean (gs.set i g') := by
  have hg := h.ok g (List.mem_of_getElem? hi)
  have hlookup : ∀ n, AList.lookup n (k.setPart g.part.n v).parts =
      if n = g.part.n then some v else AList.lookup n k.parts :=
    fun n => GoMap.lookup_insert_ite k.parts g.part.n n v
  refine h.set hi hn h.data ⟨?_, ?_⟩ ?_ hg'
  · intro n q hle hq
    rw [hlookup]
    split
    · subst n
      obtain rfl := Option.some.inj (hg.shape.symm.trans hq)
      refine ⟨v, rfl, fun p hp => ?_⟩
      rw [hv p hp]
      exact ⟨rfl, hg.good⟩
    · exact h.files.get n q hle hq
  · intro n hn'
    rw [hlookup, if_neg]
    · exact h.files.none n hn'
    · rintro rfl
      have hlt := (List.getElem?_eq_some_iff.mp hg.shape).1
      omega
  · intro g₂ hmem hne
    refine (h.ok g₂ hmem).congr (fun _ _ _ _ => rfl) ?_ h.full id
    rw [hlookup, if_neg hne]

/-- Bytes are written behind what a part has completed. -/
theorem Running.read (h : Running blob shape k clean gs) (hi : gs[i]? = some g)
    {received p : File} (hphase : g.phase = .copying received)
    (hle : g.part.completed + received.length + p.length ≤ g.part.size) :
    Running blob shape (k.setFile (k.file.write (g.part.startsAt + received.length) p)) clean
      (gs.set i { g with phase := .copying (received ++ p) }) := by
  have hg := h.ok g (List.mem_of_getElem? hi)
  have hstop : g.part.startsAt + received.length + p.length ≤ g.part.stopsAt := by
    rw [Part.startsAt, Part.stopsAt]
    omega
  -- other parts, and what has been completed
  have hother : ∀ x, x < g.part.startsAt + received.length ∨ g.part.stopsAt ≤ x →
      x < k.file.length →
      (k.file.write (g.part.startsAt + received.length) p)[x]? = k.file[x]? :=
    fun x hx hlt => File.getElem?_write_other _ (by omega) hlt
  have hlow : g.part.offset ≤ g.part.startsAt := Nat.le_add_right _ _
  refine h.set hi rfl nofun ⟨?_, h.files.none⟩ ?_ ?_
  · intro n q hzero hq
    obtain ⟨e, he, hgood⟩ := h.files.get n q hzero hq
    refine ⟨e, he, fun p' hp' => ⟨(hgood p' hp').1, (hgood p' hp').2.1, ?_⟩⟩
    obtain ⟨hfresh, hgood'⟩ := hgood p' hp'
    obtain rfl : e = some p' := hp'
    obtain ⟨rfl, hshape, -⟩ := toPart_of_files h.full h.files he
    have hstop' := stopsAt_le h.full hshape
    refine hgood'.2.write (hgood'.startsAt_le.trans hstop') ?_
    by_cases hn : p'.n = g.part.n
    · have hsame : p'.fresh = g.part.fresh := by
        rw [hn] at hshape
        exact Option.some.inj (hshape.symm.trans hg.shape)
      have hoffset : p'.fresh.offset = g.part.fresh.offset := congrArg Part.offset hsame
      have hcompleted := hg.disk p' (hn ▸ he)
      refine .inl ?_
      show p'.offset + p'.completed ≤ _
      rw [show p'.offset = g.part.offset from hoffset, Part.startsAt]
      omega
    · have hle' := hgood'.startsAt_le
      rcases disjoint_parts h.full hshape hg.shape hn with hd | hd
      · exact .inl (by omega)
      · exact .inr (by omega)
  · intro g₂ hmem hne
    refine (h.ok g₂ hmem).congr (fun x hlo hhi hlt => hother x ?_ hlt) rfl h.full id
    rcases disjoint_parts h.full (h.ok g₂ hmem).shape hg.shape hne with hd | hd
    · exact .inl (by omega)
    · exact .inr (by omega)
  · refine ⟨hg.shape, ⟨hg.good.1, ?_⟩, hg.disk, ?_, nofun, nofun, nofun⟩
    · have hstop' := stopsAt_le h.full hg.shape
      exact hg.good.2.write (hg.good.startsAt_le.trans hstop') (.inl (Nat.le_add_right _ _))
    · rintro received' hr
      obtain rfl := Option.some.inj hr
      obtain ⟨-, hall⟩ := hg.copying received (by rw [Goroutine.received, hphase]; rfl)
      refine ⟨?_, fun j hj => ?_⟩
      · show g.part.completed + (received ++ p).length ≤ g.part.size
        rw [List.length_append]
        omega
      · rw [List.length_append] at hj
        show (k.file.write (g.part.startsAt + received.length) p)[g.part.startsAt + j]? = _
        by_cases hold : j < received.length
        · have hx := hall j hold
          have hlen : g.part.startsAt + j < k.file.length := by
            rw [List.getElem?_eq_getElem hold] at hx
            exact (List.getElem?_eq_some_iff.mp hx).1
          rw [hother _ (.inl (by omega)) hlen, List.getElem?_append_left hold]
          exact hx
        · rw [File.getElem?_write_self _ (by omega) (by omega),
            List.getElem?_append_right (by omega)]
          congr 1
          omega

/-- What has been received is completed. -/
theorem Goroutine.Ok.credit (hg : g.Ok blob shape k clean) {received : File}
    (hphase : g.phase = .copying received)
    (hright : received = (blob.drop g.part.startsAt).take received.length)
    {err : Option Failure} (herr : err = none → g.part.completed + received.length = g.part.size)
    (hclean : clean' = true → err = none) :
    ({ g with part := { g.part with completed := g.part.completed + received.length },
              phase := .opening err } : Goroutine).Ok blob shape k clean' := by
  obtain ⟨hle, hall⟩ := hg.copying received (by rw [Goroutine.received, hphase]; rfl)
  refine ⟨hg.shape, ⟨hle, ?_⟩, ?_, nofun, ?_, nofun, nofun⟩
  · intro x hlo hlt
    by_cases hold : x < g.part.startsAt
    · exact hg.good.2 x hlo hold
    · have hj : x - g.part.startsAt < received.length := by
        have hlt' : x < g.part.offset + (g.part.completed + received.length) := hlt
        rw [Part.startsAt] at hold ⊢
        omega
      have hx := hall _ hj
      rw [Nat.add_sub_cancel' (not_lt.mp hold)] at hx
      rw [hx, hright, List.getElem?_take_of_lt hj, List.getElem?_drop,
        Nat.add_sub_cancel' (not_lt.mp hold)]
  · intro p hp
    exact (hg.disk p hp).trans (Nat.le_add_right _ _)
  · intro err' herr'
    obtain rfl := ChunkPhase.opening.inj herr'
    exact ⟨herr, hclean⟩

theorem of_and_not {c b : Bool} (h : (c && !b) = true) : c = true :=
  (Bool.and_eq_true_iff.mp h).1

theorem fails_n (g g' : Goroutine) (r : Option Failure) (hn : g'.part.n = g.part.n) :
    (g.fails r g').part.n = g.part.n := by
  cases r with
  | none => exact hn
  | some f =>
    cases f with
    | final => rfl
    | stalled => rfl
    | other =>
      show (g.fail .other).part.n = g.part.n
      rw [Goroutine.fail]
      split
      · rfl
      · rfl

theorem Running.chunk (h : Running blob shape k clean gs) (hi : gs[i]? = some g) {a : ChunkLabel}
    (hstep : g.step k a = some (k', g'))
    (hcareful : ∀ r, a = .finish r → r.credits = true → ∀ received ∈ g.received,
      received = (blob.drop g.part.startsAt).take received.length) :
    Running blob shape k' (clean && !a.isError) (gs.set i g') := by
  have hg := h.ok g (List.mem_of_getElem? hi)
  cases a with
  | request r =>
    simp only [Goroutine.step] at hstep
    split at hstep
    · obtain ⟨rfl, rfl⟩ := Prod.mk.inj (Option.some.inj hstep)
      refine h.quiet hi (fails_n _ _ _ rfl) of_and_not (hg.fails fun _ => ?_)
      refine ⟨hg.shape, hg.good, hg.disk, ?_, nofun, nofun, nofun⟩
      rintro received hr
      obtain rfl := Option.some.inj hr
      exact ⟨hg.good.1, nofun⟩
    · cases hstep
  | read p =>
    simp only [Goroutine.step] at hstep
    split at hstep
    · rename_i received hphase
      split at hstep
      · rename_i hle
        obtain ⟨rfl, rfl⟩ := Prod.mk.inj (Option.some.inj hstep)
        rw [show (clean && !(ChunkLabel.read p).isError) = clean from Bool.and_true clean]
        exact h.read hi hphase hle.2
      · cases hstep
    · cases hstep
  | finish r =>
    simp only [Goroutine.step] at hstep
    split at hstep
    · rename_i received hphase
      have hright : r.credits = true → received = (blob.drop g.part.startsAt).take received.length :=
        fun hc => hcareful r rfl hc received (by rw [Goroutine.received, hphase]; rfl)
      cases r with
      | full =>
        simp only at hstep
        split at hstep
        · rename_i hall
          obtain ⟨rfl, rfl⟩ := Prod.mk.inj (Option.some.inj hstep)
          refine h.quiet hi rfl of_and_not (hg.credit hphase (hright rfl) (fun _ => ?_) fun _ => rfl)
          have hle := hg.good.1
          omega
        · cases hstep
      | resumable f =>
        obtain ⟨rfl, rfl⟩ := Prod.mk.inj (Option.some.inj hstep)
        refine h.quiet hi rfl of_and_not (hg.credit hphase (hright rfl) nofun fun hc => ?_)
        rw [show (ChunkLabel.finish (.resumable f)).isError = true from rfl, Bool.not_true,
          Bool.and_false] at hc
        cases hc
      | error f =>
        obtain ⟨rfl, rfl⟩ := Prod.mk.inj (Option.some.inj hstep)
        refine h.quiet hi (fails_n g g (some f) rfl) of_and_not ?_
        rw [show (ChunkLabel.finish (.error f)).isError = true from rfl, Bool.not_true,
          Bool.and_false]
        exact hg.fail f
    · cases hstep
  | create r =>
    simp only [Goroutine.step] at hstep
    split at hstep
    · rename_i err hphase
      obtain ⟨rfl, rfl⟩ := Prod.mk.inj (Option.some.inj hstep)
      cases r with
      | none =>
        rw [show (clean && !(ChunkLabel.create none).isError) = clean from Bool.and_true clean,
          if_pos rfl]
        refine h.setPart hi (fails_n g { g with phase := .rewriting err } none rfl) nofun ?_
        refine ⟨hg.shape, hg.good, ?_, nofun, nofun, ?_, nofun⟩
        · intro p hp
          have hp' : AList.lookup g.part.n (AList.insert g.part.n none k.parts) = some (some p) := hp
          rw [AList.lookup_insert] at hp'
          cases hp'
        · intro err' herr
          obtain rfl := ChunkPhase.rewriting.inj herr
          exact hg.opening err hphase
      | some f =>
        exact h.quiet hi (fails_n g { g with phase := .rewriting err } (some f) rfl) of_and_not
          (hg.fails (r := some f) nofun)
    · cases hstep
  | write r =>
    simp only [Goroutine.step] at hstep
    split at hstep
    · rename_i err hphase
      obtain ⟨rfl, rfl⟩ := Prod.mk.inj (Option.some.inj hstep)
      have hn : (g.fails err { g with phase := .returned true }).part.n = g.part.n :=
        fails_n g _ err rfl
      cases r with
      | none =>
        rw [show (clean && !(ChunkLabel.write none).isError) = clean from Bool.and_true clean,
          if_pos rfl]
        refine h.setPart hi (fails_n g _ none hn) (fun p hp => (Option.some.inj hp).symm) ?_
        have hk : g.Ok blob shape (k.setPart g.part.n (some g.part)) clean := by
          refine ⟨hg.shape, hg.good, ?_, hg.copying, hg.opening, hg.rewriting, hg.returned⟩
          intro p hp
          have hp' : AList.lookup g.part.n (AList.insert g.part.n (some g.part) k.parts) =
            some (some p) := hp
          rw [AList.lookup_insert] at hp'
          rw [Option.some.inj (Option.some.inj hp')]
        cases err with
        | none =>
          refine ⟨hk.shape, hk.good, hk.disk, nofun, nofun, nofun, fun ok hok => ?_⟩
          obtain rfl := ChunkPhase.returned.inj hok
          exact ⟨fun _ => (hg.rewriting none hphase).1 rfl, fun _ => rfl⟩
        | some f =>
          -- there was an error before
          have hclean : clean = false := by
            cases clean with
            | false => rfl
            | true => exact absurd ((hg.rewriting _ hphase).2 rfl) nofun
          rw [hclean]
          exact hk.fail f
      | some f =>
        exact h.quiet hi (fails_n g _ (some f) hn) of_and_not (hg.fails (r := some f) nofun)
    · cases hstep

theorem chunk_file (hg : g.Ok blob shape k clean) (hfull : Full blob.length shape)
    {a : ChunkLabel} (hstep : g.step k a = some (k', g')) (hlen : k.file.length ≤ blob.length) :
    k'.file.length ≤ blob.length ∧ k'.final = k.final := by
  cases a with
  | read p =>
    simp only [Goroutine.step] at hstep
    split at hstep
    · rename_i received hphase
      split at hstep
      · rename_i hle
        obtain ⟨rfl, -⟩ := Prod.mk.inj (Option.some.inj hstep)
        have hstop := stopsAt_le hfull hg.shape
        rw [Part.stopsAt] at hstop
        refine ⟨File.length_write_le _ _ _ hlen ?_, rfl⟩
        rw [Part.startsAt]
        omega
      · cases hstep
    · cases hstep
  | request r =>
    simp only [Goroutine.step] at hstep
    split at hstep
    · obtain ⟨rfl, -⟩ := Prod.mk.inj (Option.some.inj hstep)
      exact ⟨hlen, rfl⟩
    · cases hstep
  | finish r =>
    simp only [Goroutine.step] at hstep
    split at hstep
    · cases r with
      | full =>
        simp only at hstep
        split at hstep
        · obtain ⟨rfl, -⟩ := Prod.mk.inj (Option.some.inj hstep)
          exact ⟨hlen, rfl⟩
        · cases hstep
      | resumable f =>
        obtain ⟨rfl, -⟩ := Prod.mk.inj (Option.some.inj hstep)
        exact ⟨hlen, rfl⟩
      | error f =>
        obtain ⟨rfl, -⟩ := Prod.mk.inj (Option.some.inj hstep)
        exact ⟨hlen, rfl⟩
    · cases hstep
  | create r =>
    simp only [Goroutine.step] at hstep
    split at hstep
    · obtain ⟨rfl, -⟩ := Prod.mk.inj (Option.some.inj hstep)
      split
      · exact ⟨hlen, rfl⟩
      · exact ⟨hlen, rfl⟩
    · cases hstep
  | write r =>
    simp only [Goroutine.step] at hstep
    split at hstep
    · obtain ⟨rfl, -⟩ := Prod.mk.inj (Option.some.inj hstep)
      split
      · exact ⟨hlen, rfl⟩
      · exact ⟨hlen, rfl⟩
    · cases hstep

/-- All parts have returned nil. -/
theorem Running.complete (h : Running blob shape k clean gs)
    (hall : ∀ g ∈ gs, g.phase = .returned true) (hlen : k.file.length ≤ blob.length) :
    k.file = blob := by
  refine List.ext_getElem? fun x => ?_
  by_cases hx : x < blob.length
  · rw [← h.full.2] at hx
    obtain ⟨q, hmem, hlo, hhi⟩ := h.full.1.cover hx
    obtain ⟨n, hn⟩ := List.mem_iff_getElem?.mp hmem
    have hrange : n ∈ gs.map (·.part.n) := by
      rw [h.names.mem_iff, List.mem_range]
      exact (List.getElem?_eq_some_iff.mp hn).1
    obtain ⟨g, hg, rfl⟩ := List.mem_map.mp hrange
    have hok := h.ok g hg
    obtain rfl := Option.some.inj (hok.shape.symm.trans hn)
    have hcompleted := (hok.returned true (hall g hg)).1 rfl
    refine hok.good.2 x hlo ?_
    rw [Part.startsAt, hcompleted]
    exact hhi
  · rw [List.getElem?_eq_none (not_lt.mp hx), List.getElem?_eq_none (hlen.trans (not_lt.mp hx))]

/-! ## The steps -/

theorem ready_of_built (hb : Built total ps) (htotal : total = blob.length)
    (hsum : sumSizes ps = total)
    (hlookup : ∀ n, AList.lookup n k.parts = ps[n]?.map some) : Ready blob k ps := by
  subst htotal
  have hget : ∀ n q, ps[n]? = some q → AList.lookup n k.parts = some (some q) := by
    intro n q hq
    rw [hlookup, hq]
    rfl
  have hfresh : ∀ (n : Nat) (q : Part), ps[n]? = some q → q.fresh = q ∧ q.Good blob k.file := by
    intro n q hq
    obtain ⟨-, hc, -, -⟩ := hb.get hq
    refine ⟨by rw [Part.fresh, ← hc], ?_⟩
    rw [Part.Good, Part.startsAt, hc]
    exact ⟨Nat.zero_le _, fun x hlo hlt => absurd hlt (not_lt.mpr hlo)⟩
  refine ⟨ps, ⟨hb, hsum⟩, ⟨?_, ?_⟩, ?_, ?_, ?_⟩
  · intro n q _ hq
    refine ⟨some q, hget n q hq, fun p hp => ?_⟩
    obtain rfl := Option.some.inj hp
    exact hfresh n _ hq
  · rintro n (hn | hn)
    · exact absurd hn (Nat.not_lt_zero n)
    · rw [hlookup, List.getElem?_eq_none hn]
      rfl
  · intro n _ htorn
    rw [hlookup] at htorn
    obtain ⟨q, -, hq⟩ := Option.map_eq_some_iff.mp htorn
    cases hq
  · have hnames : ps.map (·.n) = List.range ps.length := by
      refine List.ext_getElem (by rw [List.length_map, List.length_range]) fun n hn _ => ?_
      rw [List.length_map] at hn
      rw [List.getElem_map, List.getElem_range]
      exact (hb.get (List.getElem?_eq_getElem hn)).1
    rw [hnames]
  · intro p hp
    obtain ⟨n, hn⟩ := List.mem_iff_getElem?.mp hp
    rw [(hb.get hn).1]
    exact hget n p hn

/-- Behind a new part. -/
theorem creating_inv (hb : Built total ps) (htotal : total = blob.length)
    (hlookup : ∀ n, AList.lookup n k.parts = ps[n]?.map some) :
    PhaseInv blob k clean (creatingOrPrepared ps total) := by
  rw [creatingOrPrepared]
  split
  · rename_i hlt
    refine ⟨htotal, hb, hlt, fun n => ?_⟩
    rw [hlookup]
    split
    · subst n
      rw [List.getElem?_eq_none le_rfl]
      rfl
    · rfl
  · rename_i hge
    exact ⟨htotal, ready_of_built hb htotal (le_antisymm hb.sumSizes_le (not_lt.mp hge)) hlookup⟩

theorem settled_of_files (hfull : Full blob.length shape)
    (hfiles : Files blob k.file shape 0 k.parts) (htorn : k.NoTorn) : Settled blob k :=
  .inr ⟨shape, hfull, hfiles, htorn⟩

theorem Ready.settled (h : Ready blob k ps) : Settled blob k := by
  obtain ⟨shape, hfull, hfiles, htorn, -⟩ := h
  exact settled_of_files hfull hfiles htorn

/-- An attempt that ends while no part file is being created, written or removed. -/
theorem PhaseInv.settled {ph : Phase} (h : PhaseInv blob k clean ph) (htorn : k.NoTorn)
    (hbetween : ph.between = true) : Settled blob k := by
  cases ph with
  | stopped => exact h.1
  | preparing => exact h
  | heading => exact .inl h
  | creating ps total opened =>
    obtain ⟨-, -, -, hlookup⟩ := h
    obtain rfl := List.isEmpty_iff.mp hbetween
    refine .inl fun n => ?_
    have hn := hlookup n
    split at hn
    · cases opened with
      | false => exact hn
      | true => exact absurd hn (htorn n ((GoMap.mem_keys_iff _ _).mpr ⟨_, hn⟩))
    · exact hn
  | prepared ps total => exact h.2.settled
  | opened ps total => exact h.2.1.settled
  | resolving ps => exact h.1.settled
  | running gs =>
    obtain ⟨shape, h⟩ := h
    exact settled_of_files h.full h.files htorn
  | cleaning n i =>
    obtain ⟨-, -, shape, hfull, rfl, hfiles⟩ := h
    rcases Bool.or_eq_true_iff.mp hbetween with hi | hi
    · obtain rfl := eq_of_beq hi
      exact settled_of_files hfull hfiles htorn
    · obtain rfl := eq_of_beq hi
      exact .inl fun n => hfiles.none n (Nat.lt_or_ge n _)
  | finished => exact h.1

/-- A longer file has what it had. -/
theorem Ready.congr (h : Ready blob k ps) (hparts : k'.parts = k.parts)
    (hfile : ∀ x < k.file.length, k'.file[x]? = k.file[x]?) : Ready blob k' ps := by
  obtain ⟨shape, hfull, hfiles, htorn, hperm, hall⟩ := h
  refine ⟨shape, hfull, ⟨?_, ?_⟩, ?_, hperm, ?_⟩
  · intro n q hle hq
    rw [hparts]
    obtain ⟨e, he, hgood⟩ := hfiles.get n q hle hq
    refine ⟨e, he, fun p hp => ⟨(hgood p hp).1, (hgood p hp).2.1, fun x hlo hhi => ?_⟩⟩
    obtain rfl : e = some p := hp
    obtain ⟨rfl, hshape, hgood⟩ := toPart_of_files hfull hfiles he
    have hx := hgood.2 x hlo hhi
    have hblob : x < blob.length :=
      hhi.trans_le (hgood.startsAt_le.trans (stopsAt_le hfull hshape))
    have hlen : x < k.file.length := by
      rw [List.getElem?_eq_getElem hblob] at hx
      exact (List.getElem?_eq_some_iff.mp hx).1
    rw [hfile x hlen]
    exact hx
  · rw [hparts]
    exact hfiles.none
  · rw [Disk.NoTorn, hparts]
    exact htorn
  · rw [hparts]
    exact hall

/-- The parts that are complete have nothing to do. -/
theorem Ready.running (h : Ready blob k ps) (hdata : k.data ≠ none) :
    ∃ shape, Running blob shape k clean (ps.map Goroutine.start) := by
  obtain ⟨shape, hfull, hfiles, htorn, hperm, hall⟩ := h
  refine ⟨shape, hdata, hfull, hfiles, ?_, ?_⟩
  · rw [List.map_map]
    exact hperm
  · intro g hg
    obtain ⟨p, hp, rfl⟩ := List.mem_map.mp hg
    obtain ⟨-, hshape, hgood⟩ := toPart_of_files hfull hfiles (hall p hp)
    have hdisk : ∀ p', AList.lookup p.n k.parts = some (some p') → p'.completed ≤ p.completed := by
      intro p' hp'
      rw [hall p hp] at hp'
      rw [Option.some.inj (Option.some.inj hp')]
    rw [Goroutine.start]
    split
    · rename_i hcompleted
      refine ⟨hshape, hgood, hdisk, nofun, nofun, nofun, fun ok hok => ?_⟩
      obtain rfl := ChunkPhase.returned.inj hok
      exact ⟨fun _ => hcompleted, fun _ => rfl⟩
    · exact ⟨hshape, hgood, hdisk, nofun, nofun, nofun, nofun⟩

variable {s s' : State} {ph ph' : Phase}

theorem glob_inv (h : Settled blob k) (hnext : next k .preparing .glob = some (k', ph')) :
    k' = k ∧ PhaseInv blob k clean ph' := by
  simp only [next, if_true] at hnext
  rcases h with hnone | ⟨shape, hfull, hfiles, htorn⟩
  · rw [readParts_of_none hnone] at hnext
    obtain ⟨rfl, rfl⟩ := Prod.mk.inj (Option.some.inj hnext)
    exact ⟨rfl, hnone⟩
  · obtain ⟨ps, hps, hready⟩ := readParts_ready hfull hfiles htorn
    rw [hps] at hnext
    cases ps with
    | nil =>
      obtain ⟨rfl, rfl⟩ := Prod.mk.inj (Option.some.inj hnext)
      refine ⟨rfl, fun n => ?_⟩
      have hzero : blob.length = 0 := hready.sumSizes.symm
      refine hfiles.none n (.inr ?_)
      have hle := hfull.1.length_le
      rw [hfull.2, hzero] at hle
      exact hle.trans (Nat.zero_le n)
    | cons p rest =>
      obtain ⟨rfl, rfl⟩ := Prod.mk.inj (Option.some.inj hnext)
      exact ⟨rfl, hready.sumSizes, hready⟩

theorem wait_inv (h : Running blob shape k clean gs) (hlen : k.file.length ≤ blob.length)
    (hcareful : (∃ g ∈ gs, g.phase ≠ .returned true) → k.NoTorn)
    (hnext : next k (.running gs) .wait = some (k', ph')) :
    k' = k ∧ PhaseInv blob k clean ph' := by
  simp only [next] at hnext
  split at hnext
  · rename_i hall
    obtain ⟨rfl, rfl⟩ := Prod.mk.inj (Option.some.inj hnext)
    have hfile := h.complete hall hlen
    have hlength := h.names.length_eq
    rw [List.length_map, List.length_range] at hlength
    refine ⟨rfl, ?_, Nat.zero_le _, shape, h.full, hlength.symm, h.files⟩
    cases hdata : k.data with
    | none => exact absurd hdata h.data
    | some f =>
      rw [Disk.file, hdata] at hfile
      exact congrArg some hfile
  · rename_i hsome
    split at hnext
    · rename_i hall
      obtain ⟨rfl, rfl⟩ := Prod.mk.inj (Option.some.inj hnext)
      have hfailed : ∃ g ∈ gs, g.phase ≠ .returned true := by
        by_contra hno
        exact hsome fun g hg => by_contra fun hne => hno ⟨g, hg, hne⟩
      refine ⟨rfl, settled_of_files h.full h.files (hcareful hfailed), ?_⟩
      obtain ⟨g, hg, hne⟩ := hfailed
      have hret := (h.ok g hg).returned false ((hall g hg).resolve_left hne)
      cases clean with
      | false => rfl
      | true => exact absurd (hret.2 rfl) Bool.false_ne_true
    · cases hnext

theorem remove_inv {n i : Nat} (h : PhaseInv blob k clean (.cleaning n i))
    (hnext : next k (.cleaning n i) .remove = some (k', ph')) :
    k'.data = k.data ∧ k'.final = k.final ∧ PhaseInv blob k' clean ph' := by
  obtain ⟨hdata, -, shape, hfull, rfl, hfiles⟩ := h
  simp only [next] at hnext
  split at hnext
  · rename_i hlt
    obtain ⟨e, he, -⟩ := hfiles.get i _ le_rfl (List.getElem?_eq_getElem hlt)
    rw [he] at hnext
    obtain ⟨rfl, rfl⟩ := Prod.mk.inj (Option.some.inj hnext)
    have hlookup : ∀ n, AList.lookup n (k.removePart i).parts =
        if n = i then none else AList.lookup n k.parts :=
      fun n => GoMap.lookup_erase_ite k.parts i n
    refine ⟨rfl, rfl, hdata, hlt, shape, hfull, rfl, ?_, ?_⟩
    · intro n q hle hq
      rw [hlookup, if_neg (Nat.ne_of_gt hle)]
      exact hfiles.get n q (Nat.le_of_succ_le hle) hq
    · intro n hn
      rw [hlookup]
      split
      · rfl
      · exact hfiles.none n (by omega)
  · cases hnext

/-- A part file is written, and the next part is looked at. -/
theorem write_inv (h : PhaseInv blob k clean (.creating ps total true)) :
    PhaseInv blob (k.setPart (newPart total ps).n (some (newPart total ps))) clean
      (creatingOrPrepared (ps ++ [newPart total ps]) total) := by
  obtain ⟨htotal, hb, hlt, hlookup⟩ := h
  refine creating_inv (hb.snoc hlt) htotal fun n => ?_
  show AList.lookup n (AList.insert ps.length _ k.parts) = _
  rw [GoMap.lookup_insert_ite]
  split
  · subst n
    rw [List.getElem?_concat_length]
    rfl
  · rename_i hne
    rw [hlookup, if_neg hne]
    rcases Nat.lt_or_gt_of_ne hne with hlt' | hgt
    · rw [List.getElem?_append_left hlt']
    · rw [List.getElem?_eq_none hgt.le, List.getElem?_eq_none]
      rw [List.length_append, List.length_singleton]
      exact hgt

theorem Inv.mk' (hinv : Inv blob s) (hfile : k'.file.length ≤ blob.length)
    (hfinal : k'.final = s.disk.final) (hphase : PhaseInv blob k' clean' ph') :
    Inv blob ⟨k', ph', clean'⟩ :=
  ⟨hfile, hfinal ▸ hinv.final, hphase⟩

theorem idle_settled (h : PhaseInv blob k clean ph) (hidle : ph.idle = true) : Settled blob k := by
  cases ph with
  | stopped => exact h.1
  | finished => exact h.1
  | _ => cases hidle

theorem length_truncate (f : File) (n : Nat) :
    (f.take n ++ List.replicate (n - f.length) 0).length = n := by
  rw [List.length_append, List.length_take, List.length_replicate]
  omega

theorem clean_same (a : Label) (hstart : a ≠ .start) (ha : a.isError = false) :
    (if a = .start then true else clean && !a.isError) = clean := by
  rw [if_neg hstart, ha, Bool.not_false, Bool.and_true]

theorem next_inv {a : Label} (hinv : Inv blob s) (hcareful : Careful blob s a)
    (hnext : next s.disk s.phase a = some (k', ph')) :
    Inv blob ⟨k', ph', if a = .start then true else s.clean && !a.isError⟩ := by
  obtain ⟨k, ph, clean⟩ := s
  have hphase : PhaseInv blob k clean ph := hinv.phase
  have hlen : k.file.length ≤ blob.length := hinv.length
  cases a with
  | start =>
    simp only [next] at hnext
    split at hnext
    · rename_i hidle
      obtain ⟨rfl, rfl⟩ := Prod.mk.inj (Option.some.inj hnext)
      exact hinv.mk' hlen rfl (idle_settled hphase hidle)
    · cases hnext
  | stop =>
    simp only [next] at hnext
    split at hnext
    · cases hnext
    · obtain ⟨rfl, rfl⟩ := Prod.mk.inj (Option.some.inj hnext)
      exact hinv.mk' hlen rfl ⟨hphase.settled hcareful.1 hcareful.2, Bool.and_false clean⟩
  | glob =>
    have hprep : ph = .preparing := by
      simp only [next] at hnext
      split at hnext
      · assumption
      · cases hnext
    subst hprep
    obtain ⟨rfl, hph⟩ := glob_inv hphase hnext
    exact hinv.mk' hlen rfl (by rw [clean_same .glob nofun rfl]; exact hph)
  | head length =>
    simp only [next] at hnext
    split at hnext
    · rename_i hheading
      obtain rfl : ph = .heading := hheading
      obtain ⟨rfl, rfl⟩ := Prod.mk.inj (Option.some.inj hnext)
      obtain rfl : length = blob.length := hcareful
      exact hinv.mk' hlen rfl (creating_inv .nil rfl hphase)
    · cases hnext
  | create =>
    simp only [next] at hnext
    split at hnext
    · rename_i ps total
      obtain ⟨rfl, rfl⟩ := Prod.mk.inj (Option.some.inj hnext)
      obtain ⟨htotal, hb, hlt, hlookup⟩ := hphase
      refine hinv.mk' hlen rfl ⟨htotal, hb, hlt, fun n => ?_⟩
      show AList.lookup n (AList.insert ps.length _ k.parts) = _
      rw [GoMap.lookup_insert_ite]
      split
      · rfl
      · rename_i hne
        rw [hlookup, if_neg hne]
    · cases hnext
  | write =>
    simp only [next] at hnext
    split at hnext
    · obtain ⟨rfl, rfl⟩ := Prod.mk.inj (Option.some.inj hnext)
      exact hinv.mk' hlen rfl (write_inv hphase)
    · cases hnext
  | «open» =>
    simp only [next] at hnext
    split at hnext
    · obtain ⟨rfl, rfl⟩ := Prod.mk.inj (Option.some.inj hnext)
      exact hinv.mk' hlen rfl ⟨hphase.1, hphase.2.congr rfl fun _ _ => rfl, nofun⟩
    · cases hnext
  | truncate ok =>
    simp only [next] at hnext
    split at hnext
    · rename_i ps total
      obtain ⟨rfl, rfl⟩ := Prod.mk.inj (Option.some.inj hnext)
      obtain ⟨htotal, hready, hdata⟩ := hphase
      subst htotal
      split
      · refine hinv.mk' (length_truncate _ _).le rfl ⟨hready.congr rfl fun x hx => ?_, nofun⟩
        show (k.file.take blob.length ++ List.replicate _ 0)[x]? = k.file[x]?
        rw [List.take_of_length_le hlen, List.getElem?_append_left hx]
      · exact hinv.mk' hlen rfl ⟨hready, hdata⟩
    · cases hnext
  | resolve =>
    simp only [next] at hnext
    split at hnext
    · obtain ⟨rfl, rfl⟩ := Prod.mk.inj (Option.some.inj hnext)
      exact hinv.mk' hlen rfl (hphase.1.running hphase.2)
    · cases hnext
  | chunk i a =>
    simp only [next] at hnext
    split at hnext
    · rename_i gs
      obtain ⟨shape, hrun⟩ := hphase
      obtain ⟨g, hi, hg⟩ := Option.bind_eq_some_iff.mp hnext
      obtain ⟨⟨k₁, g'⟩, hstep, hr⟩ := Option.map_eq_some_iff.mp hg
      obtain ⟨rfl, rfl⟩ := Prod.mk.inj hr
      obtain ⟨hlen', hfinal⟩ := chunk_file (hrun.ok g (List.mem_of_getElem? hi)) hrun.full hstep hlen
      refine hinv.mk' hlen' hfinal ⟨shape, hrun.chunk hi hstep ?_⟩
      rintro r rfl hcredits
      exact hcareful hcredits g hi
    · cases hnext
  | wait =>
    cases ph with
    | running gs =>
      obtain ⟨shape, hrun⟩ := hphase
      obtain ⟨rfl, hph⟩ := wait_inv hrun hlen hcareful hnext
      exact hinv.mk' hlen rfl (by rw [clean_same .wait nofun rfl]; exact hph)
    | _ => cases hnext
  | remove =>
    cases ph with
    | cleaning n i =>
      obtain ⟨hdata, hfinal, hph⟩ := remove_inv hphase hnext
      refine hinv.mk' ?_ hfinal (by rw [clean_same .remove nofun rfl]; exact hph)
      rw [Disk.file, hdata]
      exact hlen
    | _ => cases hnext
  | rename =>
    simp only [next] at hnext
    split at hnext
    · rename_i n i
      split at hnext
      · cases hnext
      · rename_i hge
        obtain ⟨rfl, rfl⟩ := Prod.mk.inj (Option.some.inj hnext)
        obtain ⟨hdata, -, shape, hfull, rfl, hfiles⟩ := hphase
        refine ⟨Nat.zero_le _, ?_, .inl fun m => hfiles.none m ?_, hdata⟩
        · intro f hf
          exact (Option.some.inj (hdata.symm.trans hf)).symm
        · omega
    · cases hnext

theorem step_inv {a : Label} (hinv : Inv blob s) (hcareful : Careful blob s a)
    (hstep : step s a = some s') : Inv blob s' := by
  obtain ⟨⟨k', ph'⟩, hnext, rfl⟩ := Option.map_eq_some_iff.mp hstep
  exact next_inv hinv hcareful hnext

theorem invariant (blob : File) : (sys.restrict (Careful blob)).Invariant (Inv blob) := by
  refine TSys.Inductive.invariant ⟨?_, ?_⟩
  · rintro s rfl
    exact ⟨Nat.zero_le _, nofun, .inl fun n => GoMap.lookup_empty n, rfl⟩
  · rintro s a s' hinv ⟨hcareful, hstep⟩
    exact step_inv hinv hcareful hstep

/-! ## An attempt without errors -/

/-- The operations that a part has left, at most. -/
def Goroutine.left (g : Goroutine) : Nat :=
  match g.phase with
  | .ready => g.part.size - g.part.completed + 5
  | .copying received => g.part.size - g.part.completed - received.length + 4
  | .opening _ => 3
  | .rewriting _ => 2
  | .returned _ => 0

def leftOf (gs : List Goroutine) : Nat := (gs.map Goroutine.left).sum

/-- The operations that an attempt has left, at most. -/
def Phase.left (total : Nat) : Phase → Nat
  | .stopped => 0
  | .finished => 0
  | .preparing => 9 * total + 10
  | .heading => 9 * total + 9
  | .creating ps _ isOpen =>
    2 * (total - sumSizes ps) + (if isOpen = true then 0 else 1) + (7 * total + 7)
  | .prepared ps _ => leftOf (ps.map Goroutine.start) + ps.length + 7
  | .opened ps _ => leftOf (ps.map Goroutine.start) + ps.length + 6
  | .resolving ps => leftOf (ps.map Goroutine.start) + ps.length + 5
  | .running gs => leftOf gs + gs.length + 4
  | .cleaning n i => n - i + 2

theorem leftOf_set_lt {gs : List Goroutine} {i : Nat} {g g' : Goroutine} (hi : gs[i]? = some g)
    (hlt : g'.left < g.left) : leftOf (gs.set i g') < leftOf gs := by
  induction gs generalizing i with
  | nil => cases hi
  | cons g₀ rest ih =>
    cases i with
    | zero =>
      obtain rfl := Option.some.inj hi
      exact Nat.add_lt_add_right hlt _
    | succ i => exact Nat.add_lt_add_left (ih (i := i) hi) _

theorem leftOf_start_le (ps : List Part) :
    leftOf (ps.map Goroutine.start) ≤ sumSizes ps + 5 * ps.length := by
  induction ps with
  | nil => exact Nat.le_refl _
  | cons p rest ih =>
    have hp : (Goroutine.start p).left ≤ p.size + 5 := by
      rw [Goroutine.start]
      split
      · exact Nat.zero_le _
      · show p.size - p.completed + 5 ≤ p.size + 5
        omega
    have hcons : leftOf ((p :: rest).map Goroutine.start) =
      (Goroutine.start p).left + leftOf (rest.map Goroutine.start) := rfl
    have hsum : sumSizes (p :: rest) = p.size + sumSizes rest := rfl
    rw [hcons, hsum, List.length_cons]
    omega

theorem Ready.left_le (h : Ready blob k ps) :
    leftOf (ps.map Goroutine.start) + ps.length ≤ 7 * blob.length := by
  have hle := leftOf_start_le ps
  have hsum := h.sumSizes
  have hlen := h.length_le
  omega

theorem chunk_left {a : ChunkLabel} (hg : g.Ok blob shape k true) (ha : a.isError = false)
    (hstep : g.step k a = some (k', g')) : g'.left < g.left := by
  have hnone : ∀ {r : Option Failure}, r.isSome = false → r = none := Option.not_isSome_iff_eq_none.mp ∘ (by simp)
  cases a with
  | request r =>
    obtain rfl := hnone ha
    simp only [Goroutine.step] at hstep
    split at hstep
    · rename_i hphase
      obtain ⟨-, rfl⟩ := Prod.mk.inj (Option.some.inj hstep)
      simp only [Goroutine.left, Goroutine.fails, hphase, Option.elim_none, List.length_nil]
      omega
    · cases hstep
  | read p =>
    simp only [Goroutine.step] at hstep
    split at hstep
    · rename_i received hphase
      split at hstep
      · rename_i hle
        obtain ⟨-, rfl⟩ := Prod.mk.inj (Option.some.inj hstep)
        have hpos := List.length_pos_iff.mpr hle.1
        simp only [Goroutine.left, hphase, List.length_append]
        omega
      · cases hstep
    · cases hstep
  | finish r =>
    obtain rfl : r = .full := by
      by_contra hne
      exact absurd ha (by simp only [ChunkLabel.isError, hne, ne_eq, not_false_eq_true,
        decide_true, Bool.true_eq_false])
    simp only [Goroutine.step] at hstep
    split at hstep
    · rename_i received hphase
      split at hstep
      · obtain ⟨-, rfl⟩ := Prod.mk.inj (Option.some.inj hstep)
        simp only [Goroutine.left, hphase]
        omega
      · cases hstep
    · cases hstep
  | create r =>
    obtain rfl := hnone ha
    simp only [Goroutine.step] at hstep
    split at hstep
    · rename_i err hphase
      obtain ⟨-, rfl⟩ := Prod.mk.inj (Option.some.inj hstep)
      simp only [Goroutine.left, Goroutine.fails, hphase, Option.elim_none]
      omega
    · cases hstep
  | write r =>
    obtain rfl := hnone ha
    simp only [Goroutine.step] at hstep
    split at hstep
    · rename_i err hphase
      obtain rfl := (hg.rewriting err hphase).2 rfl
      obtain ⟨-, rfl⟩ := Prod.mk.inj (Option.some.inj hstep)
      simp only [Goroutine.left, Goroutine.fails, hphase, Option.elim_none]
      omega
    · cases hstep

/-- A part that has not returned goes on. -/
theorem chunk_goes_on (hg : g.Ok blob shape k true) (hphase : g.phase ≠ .returned true) :
    ∃ a : ChunkLabel, a.isError = false ∧ (g.step k a).isSome = true := by
  cases h : g.phase with
  | ready => exact ⟨.request none, rfl, by simp only [Goroutine.step, h, if_true, Option.isSome_some]⟩
  | copying received =>
    obtain ⟨hle, -⟩ := hg.copying received (by rw [Goroutine.received, h]; rfl)
    by_cases hall : received.length = g.part.size - g.part.completed
    · refine ⟨.finish .full, rfl, ?_⟩
      simp only [Goroutine.step, h]
      rw [if_pos hall]
      rfl
    · refine ⟨.read [0], rfl, ?_⟩
      simp only [Goroutine.step, h]
      rw [if_pos ⟨List.cons_ne_nil _ _, by rw [List.length_singleton]; omega⟩]
      rfl
  | opening err => exact ⟨.create none, rfl, by simp only [Goroutine.step, h, Option.isSome_some]⟩
  | rewriting err => exact ⟨.write none, rfl, by simp only [Goroutine.step, h, Option.isSome_some]⟩
  | returned ok =>
    obtain rfl := (hg.returned ok h).2 rfl
    exact absurd h hphase

theorem goes_on (hinv : Inv blob s) (hclean : s.clean = true) (hidle : s.phase.idle = false) :
    ∃ a s', a.isError = false ∧ step s a = some s' := by
  have hsome : ∀ {a : Label}, a.isError = false → (next s.disk s.phase a).isSome = true →
      ∃ a s', a.isError = false ∧ step s a = some s' := by
    intro a ha hs
    obtain ⟨r, hr⟩ := Option.isSome_iff_exists.mp hs
    exact ⟨a, _, ha, by rw [step, hr]; rfl⟩
  obtain ⟨k, ph, clean⟩ := s
  obtain rfl : clean = true := hclean
  have hphase : PhaseInv blob k true ph := hinv.phase
  cases ph with
  | stopped => cases hidle
  | finished => cases hidle
  | preparing =>
    refine hsome (a := .glob) rfl ?_
    simp only [next, if_true]
    split <;> rfl
  | heading => exact hsome (a := .head 0) rfl rfl
  | creating ps total opened =>
    cases opened with
    | false => exact hsome (a := .create) rfl rfl
    | true => exact hsome (a := .write) rfl rfl
  | prepared ps total => exact hsome (a := .open) rfl rfl
  | opened ps total => exact hsome (a := .truncate true) rfl rfl
  | resolving ps => exact hsome (a := .resolve) rfl rfl
  | running gs =>
    obtain ⟨shape, hrun⟩ := hphase
    by_cases hall : ∀ g ∈ gs, g.phase = .returned true
    · refine hsome (a := .wait) rfl ?_
      simp only [next]
      rw [if_pos hall]
      rfl
    · obtain ⟨g, hg, hne⟩ : ∃ g ∈ gs, g.phase ≠ .returned true := by
        by_contra hno
        exact hall fun g hg => by_contra fun hne => hno ⟨g, hg, hne⟩
      obtain ⟨i, hi⟩ := List.mem_iff_getElem?.mp hg
      obtain ⟨a, ha, hstep⟩ := chunk_goes_on (hrun.ok g hg) hne
      refine hsome (a := .chunk i a) ha ?_
      simp only [next]
      rw [hi, Option.bind_some, Option.isSome_map]
      exact hstep
  | cleaning n i =>
    by_cases hlt : i < n
    · refine hsome (a := .remove) rfl ?_
      simp only [next]
      rw [if_pos hlt]
      split <;> rfl
    · refine hsome (a := .rename) rfl ?_
      simp only [next]
      rw [if_neg hlt]
      rfl

theorem creating_left (h : PhaseInv blob k clean (creatingOrPrepared ps total)) :
    (creatingOrPrepared ps total).left blob.length ≤
      2 * (blob.length - sumSizes ps) + 1 + (7 * blob.length + 7) := by
  rw [creatingOrPrepared] at h ⊢
  split
  · exact le_rfl
  · rename_i hge
    rw [if_neg hge] at h
    have hle := h.2.left_le
    show leftOf (ps.map Goroutine.start) + ps.length + 7 ≤ _
    omega

/-- Each operation is one less. -/
theorem left_lt {a : Label} (hinv : Inv blob s) (hcareful : Careful blob s a)
    (hclean : s.clean = true) (hstart : a ≠ .start) (ha : a.isError = false)
    (hstep : step s a = some s') : s'.phase.left blob.length < s.phase.left blob.length := by
  have hinv' := step_inv hinv hcareful hstep
  obtain ⟨⟨k', ph'⟩, hnext, rfl⟩ := Option.map_eq_some_iff.mp hstep
  obtain ⟨k, ph, clean⟩ := s
  obtain rfl : clean = true := hclean
  have hphase : PhaseInv blob k true ph := hinv.phase
  have hphase' : PhaseInv blob k' _ ph' := hinv'.phase
  rw [clean_same a hstart ha] at hphase'
  show ph'.left blob.length < ph.left blob.length
  cases a with
  | start => exact absurd rfl hstart
  | stop => cases ha
  | glob =>
    simp only [next] at hnext
    split at hnext
    · rename_i hprep
      obtain rfl : ph = .preparing := hprep
      split at hnext
      · obtain ⟨rfl, rfl⟩ := Prod.mk.inj (Option.some.inj hnext)
        exact Nat.succ_pos _
      · obtain ⟨rfl, rfl⟩ := Prod.mk.inj (Option.some.inj hnext)
        exact Nat.lt_succ_self _
      · obtain ⟨rfl, rfl⟩ := Prod.mk.inj (Option.some.inj hnext)
        have hle := hphase'.2.left_le
        show leftOf _ + _ + 7 < 9 * blob.length + 10
        omega
    · cases hnext
  | head length =>
    simp only [next] at hnext
    split at hnext
    · rename_i hheading
      obtain rfl : ph = .heading := hheading
      obtain ⟨rfl, rfl⟩ := Prod.mk.inj (Option.some.inj hnext)
      have hle := creating_left hphase'
      rw [show sumSizes [] = 0 from rfl] at hle
      show _ < 9 * blob.length + 9
      omega
    · cases hnext
  | create =>
    simp only [next] at hnext
    split at hnext
    · rename_i ps total
      obtain ⟨rfl, rfl⟩ := Prod.mk.inj (Option.some.inj hnext)
      show 2 * (blob.length - sumSizes ps) + 0 + _ < 2 * (blob.length - sumSizes ps) + 1 + _
      omega
    · cases hnext
  | write =>
    simp only [next] at hnext
    split at hnext
    · rename_i ps total
      obtain ⟨rfl, rfl⟩ := Prod.mk.inj (Option.some.inj hnext)
      obtain ⟨htotal, hb, hlt, -⟩ := hphase
      subst htotal
      obtain ⟨hpos, hend⟩ := newPart_size hlt
      have hle := creating_left hphase'
      rw [sumSizes_append_singleton] at hle
      show _ < 2 * (blob.length - sumSizes ps) + 0 + (7 * blob.length + 7)
      omega
    · cases hnext
  | «open» =>
    simp only [next] at hnext
    split at hnext
    · obtain ⟨rfl, rfl⟩ := Prod.mk.inj (Option.some.inj hnext)
      exact Nat.lt_succ_self _
    · cases hnext
  | truncate ok =>
    simp only [next] at hnext
    split at hnext
    · obtain ⟨rfl, rfl⟩ := Prod.mk.inj (Option.some.inj hnext)
      exact Nat.lt_succ_self _
    · cases hnext
  | resolve =>
    simp only [next] at hnext
    split at hnext
    · obtain ⟨rfl, rfl⟩ := Prod.mk.inj (Option.some.inj hnext)
      simp only [Phase.left, List.length_map]
      omega
    · cases hnext
  | chunk i a =>
    simp only [next] at hnext
    split at hnext
    · obtain ⟨shape, hrun⟩ := hphase
      obtain ⟨g, hi, hg⟩ := Option.bind_eq_some_iff.mp hnext
      obtain ⟨⟨k₁, g'⟩, hstep', hr⟩ := Option.map_eq_some_iff.mp hg
      obtain ⟨rfl, rfl⟩ := Prod.mk.inj hr
      have hlt := leftOf_set_lt hi (chunk_left (hrun.ok g (List.mem_of_getElem? hi)) ha hstep')
      simp only [Phase.left, List.length_set]
      omega
    · cases hnext
  | wait =>
    simp only [next] at hnext
    split at hnext
    · split at hnext
      · obtain ⟨rfl, rfl⟩ := Prod.mk.inj (Option.some.inj hnext)
        simp only [Phase.left]
        omega
      · split at hnext
        · obtain ⟨rfl, rfl⟩ := Prod.mk.inj (Option.some.inj hnext)
          exact Nat.succ_pos _
        · cases hnext
    · cases hnext
  | remove =>
    simp only [next] at hnext
    split at hnext
    · split at hnext
      · split at hnext
        · obtain ⟨rfl, rfl⟩ := Prod.mk.inj (Option.some.inj hnext)
          exact Nat.succ_pos _
        · obtain ⟨rfl, rfl⟩ := Prod.mk.inj (Option.some.inj hnext)
          simp only [Phase.left]
          omega
      · cases hnext
    · cases hnext
  | rename =>
    simp only [next] at hnext
    split at hnext
    · split at hnext
      · cases hnext
      · obtain ⟨rfl, rfl⟩ := Prod.mk.inj (Option.some.inj hnext)
        exact Nat.succ_pos _
    · cases hnext

/-! ## The results -/

/-- The parts have each byte below `total` once. -/
def Tiles (ps : List Part) (total : Nat) : Prop :=
  (ps.map (·.n)).Nodup ∧ (∀ p ∈ ps, p.stopsAt ≤ total) ∧
    ∀ x < total, ∃! p, p ∈ ps ∧ p.offset ≤ x ∧ x < p.stopsAt

theorem Ready.tiles (h : Ready blob k ps) : Tiles ps blob.length := by
  obtain ⟨shape, hfull, hfiles, -, hperm, hall⟩ := h
  have hpart : ∀ p ∈ ps, shape[p.n]? = some p.fresh :=
    fun p hp => (toPart_of_files hfull hfiles (hall p hp)).2.1
  refine ⟨hperm.nodup_iff.mpr List.nodup_range, fun p hp => stopsAt_le hfull (hpart p hp), ?_⟩
  intro x hx
  rw [← hfull.2] at hx
  obtain ⟨q, hmem, hlo, hhi⟩ := hfull.1.cover hx
  obtain ⟨n, hn⟩ := List.mem_iff_getElem?.mp hmem
  have hrange : n ∈ ps.map (·.n) := by
    rw [hperm.mem_iff, List.mem_range]
    exact (List.getElem?_eq_some_iff.mp hn).1
  obtain ⟨p, hp, rfl⟩ := List.mem_map.mp hrange
  obtain rfl := Option.some.inj ((hpart p hp).symm.trans hn)
  refine ⟨p, ⟨hp, hlo, hhi⟩, ?_⟩
  rintro p' ⟨hp', hlo', hhi'⟩
  by_cases hsame : p'.n = p.n
  · have heq := (hall p hp).symm.trans (hsame ▸ hall p' hp')
    exact (Option.some.inj (Option.some.inj heq)).symm
  · have hlo : p.offset ≤ x := hlo
    have hhi : x < p.stopsAt := hhi
    rcases disjoint_parts hfull (hpart p' hp') (hpart p hp) hsame with hd | hd
    · omega
    · omega

/-- The completed bytes of every part file are the blob's. -/
theorem good_of_file (h : PhaseInv blob k clean ph) {n : Nat} {p : Part}
    (hp : AList.lookup n k.parts = some (some p)) : p.Good blob k.file := by
  have hsettled : Settled blob k → p.Good blob k.file := by
    rintro (hnone | ⟨shape, hfull, hfiles, -⟩)
    · rw [hnone] at hp
      cases hp
    · exact (toPart_of_files hfull hfiles hp).2.2
  cases ph with
  | stopped => exact hsettled h.1
  | preparing => exact hsettled h
  | heading => exact hsettled (.inl h)
  | creating ps total isOpen =>
    obtain ⟨-, hb, -, hlookup⟩ := h
    rw [hlookup] at hp
    split at hp
    · split at hp <;> cases hp
    · obtain ⟨q, hq, heq⟩ := Option.map_eq_some_iff.mp hp
      obtain rfl := Option.some.inj heq
      rw [Part.Good, Part.startsAt, (hb.get hq).2.1]
      exact ⟨Nat.zero_le _, fun x hlo hlt => absurd hlt (not_lt.mpr hlo)⟩
  | prepared ps total => exact hsettled h.2.settled
  | opened ps total => exact hsettled h.2.1.settled
  | resolving ps => exact hsettled h.1.settled
  | running gs =>
    obtain ⟨shape, h⟩ := h
    exact (toPart_of_files h.full h.files hp).2.2
  | cleaning m i =>
    obtain ⟨-, -, shape, hfull, -, hfiles⟩ := h
    by_cases hout : n < i ∨ shape.length ≤ n
    · rw [hfiles.none n hout] at hp
      cases hp
    · rw [not_or, not_lt, not_le] at hout
      obtain ⟨e, he, hgood⟩ := hfiles.get n _ hout.1 (List.getElem?_eq_getElem hout.2)
      obtain rfl := Option.some.inj (he.symm.trans hp)
      exact (hgood p rfl).2
  | finished => exact hsettled h.1

/-- What holds in a run, `prepared` where `Prepare` has succeeded. -/
structure Resumable (blob : File) (s : State) : Prop where
  prepared : ∀ ps total, s.phase = .prepared ps total → total = blob.length ∧ Tiles ps total ∧
    (∀ p ∈ ps, AList.lookup p.n s.disk.parts = some (some p)) ∧
    ∀ n ∈ s.disk.parts.keys, ∃ p ∈ ps, p.n = n
  bytes : ∀ n p, AList.lookup n s.disk.parts = some (some p) →
    ∀ x, p.offset ≤ x → x < p.offset + p.completed → s.disk.file[x]? = blob[x]?
  final : ∀ f ∈ s.disk.final, f = blob
  finished : s.phase = .finished → s.disk.final = some blob
  noError : s.clean = true → s.phase ≠ .stopped ∧
    (s.phase.idle = false → ∃ a s', a.isError = false ∧ step s a = some s') ∧
    ∀ a s', a ≠ .start → a.isError = false → Careful blob s a → step s a = some s' →
      s'.phase.left blob.length < s.phase.left blob.length

theorem resume_sound (hreach : (sys.restrict (Careful blob)).Reachable s) : Resumable blob s := by
  have hinv := invariant blob s hreach
  refine ⟨?_, ?_, hinv.final, ?_, fun hclean => ⟨?_, ?_, ?_⟩⟩
  · intro ps total hphase
    have hp := hinv.phase
    rw [hphase] at hp
    obtain ⟨htotal, hready⟩ := hp
    subst htotal
    refine ⟨rfl, hready.tiles, ?_⟩
    obtain ⟨shape, -, hfiles, -, hperm, hall⟩ := hready
    refine ⟨hall, fun n hn => ?_⟩
    have hrange : n ∈ ps.map (·.n) := by
      rw [hperm.mem_iff, List.mem_range]
      by_contra hge
      obtain ⟨v, hv⟩ := (GoMap.mem_keys_iff _ _).mp hn
      rw [hfiles.none n (.inr (not_lt.mp hge))] at hv
      cases hv
    exact List.mem_map.mp hrange
  · intro n p hp
    exact (good_of_file hinv.phase hp).2
  · intro hphase
    have hp := hinv.phase
    rw [hphase] at hp
    exact hp.2
  · intro hphase
    have hp := hinv.phase
    rw [hphase] at hp
    exact absurd hclean (by rw [hp.2]; exact Bool.false_ne_true)
  · exact goes_on hinv hclean
  · exact fun a s' hstart ha hcareful hstep => left_lt hinv hcareful hclean hstart ha hstep

/-! ## Runs -/

/-- The first attempt is cut short behind the first of two bytes, the second one goes on. -/
def resumed : List Label :=
  [.start, .glob, .head 2, .create, .write, .open, .truncate true, .resolve,
    .chunk 0 (.request none), .chunk 0 (.read [7]), .chunk 0 (.finish (.resumable .final)),
    .chunk 0 (.create none), .chunk 0 (.write none), .stop,
    .start, .glob, .open, .truncate true, .resolve,
    .chunk 0 (.request none), .chunk 0 (.read [8]), .chunk 0 (.finish .full),
    .chunk 0 (.create none), .chunk 0 (.write none), .wait, .remove, .rename]

theorem resume_sound_two : ∃ s, (sys.restrict (Careful [7, 8])).Reachable s ∧
    s.phase = .finished ∧ s.disk.final = some [7, 8] := by
  obtain ⟨s, hreach, hphase⟩ := TSys.Reachable.exists_of_run_restrict (T := sys) (f := step)
    (G := Careful [7, 8]) (P := fun s => s.phase = .finished) (fun _ _ _ hstep => hstep)
    (.init rfl) resumed (by decide)
  exact ⟨s, hreach, hphase, (resume_sound hreach).finished hphase⟩

/-- The registry tells a length, and no other bytes. -/
def Tells (length : Nat) (_ : State) (a : Label) : Prop :=
  match a with
  | .head n => n = length
  | .chunk _ (.read _) => False
  | _ => True

instance (length : Nat) (s : State) : DecidablePred (Tells length s) := by
  intro a
  unfold Tells
  split <;> infer_instance

/-- An attempt that stops between two part files of a blob of 100000001 bytes leaves the
first part to be taken for all of it. One that stops when a part file has been opened makes
all further attempts fail. -/
theorem resume_unsound :
    (∃ s, (sys.restrict (Tells (10 ^ 8 + 1))).Reachable s ∧
      s.phase = .prepared [⟨0, 0, 10 ^ 8, 0⟩] (10 ^ 8)) ∧
    ∃ s, (sys.restrict (Tells 1)).Reachable s ∧ s.clean = true ∧ s.phase = .stopped := by
  have hnext : ∀ s a s', step s a = some s' → sys.step s a s' := fun _ _ _ hstep => hstep
  constructor
  · exact TSys.Reachable.exists_of_run_restrict hnext (.init rfl)
      [.start, .glob, .head (10 ^ 8 + 1), .create, .write, .stop, .start, .glob] (by decide)
  · exact TSys.Reachable.exists_of_run_restrict hnext (.init rfl)
      [.start, .glob, .head 1, .create, .stop, .start, .glob] (by decide)

end Prismalama.Server.BlobDownload
