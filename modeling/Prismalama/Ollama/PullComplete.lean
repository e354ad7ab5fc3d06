import Prismalama.Ollama.Pull

/-!
# What a pull leaves in the cache

`Pull` returns nil when every byte is accounted for: it was received, or a file or
a record vouched for it. Where those are right (`Trusted`), the files are complete
(`pull_complete`). They need not be: a file of the full size can have holes, the
record of a chunk outlives the file, and a manifest is not replaced by another one of
its size (`pull_incomplete`).
-/

namespace Prismalama.Ollama

open Prismalama.Lib

namespace Registry

variable {D : Type*} [DecidableEq D] (R : Registry D)

/-! ## Bytes -/

/-- The file of a blob has the right byte at a position. -/
def Right (c : DiskCache D) (d : D) (k : Nat) : Prop :=
  (AList.lookup d c.blobs).bind (fun f => f[k]?) = (R.content d)[k]?

instance (c : DiskCache D) (d : D) (k : Nat) : Decidable (R.Right c d k) :=
  inferInstanceAs (Decidable (_ = _))

/-- A download is still to write a byte of a blob. -/
def InFlight (p : Pull D) (d : D) (k : Nat) : Prop :=
  ∃ t ∈ p.tasks, t.layer.digest = d ∧ t.handle = .file ∧
    t.cs.chunk.start + t.received ≤ (k : Int) ∧ (k : Int) ≤ t.cs.chunk.stop

instance (p : Pull D) (d : D) (k : Nat) : Decidable (InFlight p d k) :=
  inferInstanceAs (Decidable (∃ t ∈ p.tasks, _))

/-- The bytes from `a` up to `b` are right, or will be unless a download fails. -/
def Sound (c : DiskCache D) (p : Pull D) (d : D) (a b : Int) : Prop :=
  ∀ k < b.toNat, a ≤ (k : Int) → R.Right c d k ∨ InFlight p d k

instance (c : DiskCache D) (p : Pull D) (d : D) (a b : Int) : Decidable (R.Sound c p d a b) :=
  inferInstanceAs (Decidable (∀ k < b.toNat, _))

theorem Sound.append {R : Registry D} {c : DiskCache D} {p : Pull D} {d : D} {a b e : Int}
    (h₁ : R.Sound c p d a b) (h₂ : R.Sound c p d b e) : R.Sound c p d a e := by
  intro k hk ha
  by_cases hkb : (k : Int) < b
  · exact h₁ k (by omega) ha
  · exact h₂ k hk (by omega)

/-- What `Pull` goes by is right: the file of a layer that is taken for it, the
bytes of a chunk with a record and the manifest that is not replaced. A file can be
opened unless its chunks have bytes that will be missed. -/
def Trusted (s : State D) : Label D → Prop
  | .get => ∀ p ∈ s.pull, ∀ l ∈ p.todo.head?, s.cache.get l.digest = some l.size →
      R.Sound s.cache p l.digest 0 l.size
  | .chunksum => ∀ p ∈ s.pull, ∀ e ∈ p.stage.chunk?,
      (s.cache.get (R.sum (R.cacheKey e.1 e.2))).isSome = true →
        R.Sound s.cache p e.1.digest e.2.chunk.start (e.2.chunk.stop + 1)
  | .chunked opened => ∀ p ∈ s.pull, ∀ l ∈ p.stage.opening?, opened = false → l.size ≠ 0
  | .wait _ _ => ∀ p ∈ s.pull, ∀ f ∈ s.cache.manifest p.manifest.name,
      f.length = p.manifest.data.length → R.sum f = R.sum p.manifest.data
  | _ => True

instance (s : State D) : DecidablePred (R.Trusted s)
  | .get => inferInstanceAs (Decidable (∀ p ∈ s.pull, _))
  | .chunksum => inferInstanceAs (Decidable (∀ p ∈ s.pull, _))
  | .chunked _ => inferInstanceAs (Decidable (∀ p ∈ s.pull, _))
  | .wait _ _ => inferInstanceAs (Decidable (∀ p ∈ s.pull, _))
  | .pull _ | .endStream | .receive _ _ | .finish _ _ | .fail _ _ | .delete _ => .isTrue trivial

variable {R}

theorem Right.exists_file {c : DiskCache D} {d : D} {k : Nat} (h : R.Right c d k)
    (hk : k < (R.content d).length) :
    ∃ f, AList.lookup d c.blobs = some f ∧ k < f.length ∧ f[k]? = (R.content d)[k]? := by
  rw [Right, List.getElem?_eq_getElem hk] at h
  obtain ⟨f, hf, hget⟩ := Option.bind_eq_some_iff.mp h
  rw [List.getElem?_eq_getElem hk]
  exact ⟨f, hf, (List.getElem?_eq_some_iff.mp hget).1, hget⟩

/-- No file is longer than its blob. -/
def Short (R : Registry D) (c : DiskCache D) : Prop :=
  ∀ d f, AList.lookup d c.blobs = some f → f.length ≤ (R.content d).length

/-- A blob that is right everywhere is the blob. -/
theorem eq_content {c : DiskCache D} {d : D} {f : File} (hshort : R.Short c)
    (hf : AList.lookup d c.blobs = some f)
    (h : ∀ k < (R.content d).length, R.Right c d k) : f = R.content d := by
  have hle := hshort d f hf
  refine List.ext_getElem? fun k => ?_
  by_cases hk : k < (R.content d).length
  · obtain ⟨f', hf', -, hget⟩ := (h k hk).exists_file hk
    rw [hf] at hf'
    obtain rfl := Option.some.inj hf'
    exact hget
  · rw [List.getElem?_eq_none (by omega), List.getElem?_eq_none (by omega)]

/-! ## What a step does to the files -/

/-- No file is lost, and no byte that was right. -/
structure Grows (R : Registry D) (c c' : DiskCache D) : Prop where
  isSome : ∀ d, (AList.lookup d c.blobs).isSome = true → (AList.lookup d c'.blobs).isSome = true
  right : ∀ d k, k < (R.content d).length → R.Right c d k → R.Right c' d k

theorem Grows.refl (c : DiskCache D) : R.Grows c c := ⟨fun _ => id, fun _ _ _ => id⟩

/-- A chunk's bytes go where they belong. -/
theorem grows_write {c : DiskCache D} {d : D} {off n : Nat}
    (hn : off + n ≤ (R.content d).length) :
    R.Grows c (c.write d off (((R.content d).drop off).take n)) := by
  have hlen : (((R.content d).drop off).take n).length = n := by
    rw [List.length_take, List.length_drop]
    omega
  cases hf : AList.lookup d c.blobs with
  | none =>
    simp only [DiskCache.write, hf]
    exact .refl c
  | some f =>
    simp only [DiskCache.write, hf]
    constructor
    · intro d' hd'
      exact GoMap.isSome_lookup_insert hd'
    · intro d' k hk hright
      rw [Right, GoMap.lookup_insert_ite]
      split
      · subst d'
        obtain ⟨f', hf', hlt, hget⟩ := hright.exists_file hk
        rw [hf] at hf'
        obtain rfl := Option.some.inj hf'
        show (f.writeAt off _)[k]? = _
        by_cases hin : off ≤ k ∧ k < off + n
        · rw [File.getElem?_writeAt_self f hin.1 (by omega),
            List.getElem?_take_of_lt (by omega), List.getElem?_drop]
          congr 1
          omega
        · rw [File.getElem?_writeAt_other f (by omega) hlt, hget]
      · exact hright

theorem right_write {c : DiskCache D} {d : D} {off n k : Nat}
    (hn : off + n ≤ (R.content d).length) (hf : (AList.lookup d c.blobs).isSome = true)
    (hlo : off ≤ k) (hhi : k < off + n) :
    R.Right (c.write d off (((R.content d).drop off).take n)) d k := by
  have hlen : (((R.content d).drop off).take n).length = n := by
    rw [List.length_take, List.length_drop]
    omega
  obtain ⟨f, hf⟩ := Option.isSome_iff_exists.mp hf
  simp only [DiskCache.write, hf]
  rw [Right, GoMap.lookup_insert_ite, if_pos rfl]
  show (f.writeAt off _)[k]? = _
  rw [File.getElem?_writeAt_self f hlo (by omega), List.getElem?_take_of_lt (by omega),
    List.getElem?_drop]
  congr 1
  omega

theorem short_write {c : DiskCache D} {d : D} {off n : Nat} (hshort : R.Short c)
    (hn : off + n ≤ (R.content d).length) :
    R.Short (c.write d off (((R.content d).drop off).take n)) := by
  cases hf : AList.lookup d c.blobs with
  | none =>
    simp only [DiskCache.write, hf]
    exact hshort
  | some f =>
    simp only [DiskCache.write, hf]
    intro d' f' hf'
    rw [GoMap.lookup_insert_ite] at hf'
    split at hf'
    · subst d'
      obtain rfl := Option.some.inj hf'
      have := hshort d f hf
      rw [File.length_writeAt, List.length_take, List.length_drop]
      omega
    · exact hshort d' f' hf'

theorem short_putBytes {c : DiskCache D} {d : D} {o : Outcome} (hshort : R.Short c) :
    R.Short (c.putBytes R.sum d (R.content d) o).1 := by
  intro d' f hf
  rcases lookup_copyNamedFile hf with hf | ⟨rfl, hle⟩
  · exact hshort d' f hf
  · exact hle

/-- Putting a blob that succeeds leaves no byte of it wrong that was right. -/
theorem grows_putBytes {c c' : DiskCache D} {d : D} {o : Outcome}
    (h : c.putBytes R.sum d (R.content d) o = (c', true)) : R.Grows c c' := by
  rcases DiskCache.putBytes_ok h with ⟨rfl, -⟩ | rfl
  · exact .refl c'
  · refine ⟨fun d' hd' => GoMap.isSome_lookup_insert hd', fun d' k hk hright => ?_⟩
    rw [Right, GoMap.lookup_insert_ite]
    split
    · subst d'
      rfl
    · exact hright

/-- Opening a file to write it. -/
theorem chunked_some {c c' : DiskCache D} {d : D} {size : Int} {opened : Bool}
    {handle : DiskCache.Handle} (h : c.chunked d size opened = some (c', handle)) :
    R.Grows c c' ∧ (R.Short c → R.Short c') ∧ (AList.lookup d c'.blobs).isSome = true ∧
      handle ≠ .unlinked := by
  simp only [DiskCache.chunked] at h
  split at h
  · rename_i hsize
    obtain ⟨rfl, rfl⟩ := Prod.mk.inj (Option.some.inj h)
    obtain ⟨f, hf, -⟩ := Option.map_eq_some_iff.mp hsize
    exact ⟨.refl c, id, Option.isSome_iff_exists.mpr ⟨f, hf⟩, nofun⟩
  split at h
  · split at h
    · rename_i hnone
      obtain ⟨rfl, rfl⟩ := Prod.mk.inj (Option.some.inj h)
      refine ⟨⟨fun d' hd' => GoMap.isSome_lookup_insert hd', fun d' k hk hright => ?_⟩, ?_, ?_,
        nofun⟩
      · obtain ⟨f, hf, -⟩ := hright.exists_file hk
        rw [Right, GoMap.lookup_insert_ite]
        split
        · subst d'
          rw [hnone] at hf
          cases hf
        · exact hright
      · intro hshort d' f hf
        rw [GoMap.lookup_insert_ite] at hf
        split at hf
        · obtain rfl := Option.some.inj hf
          exact Nat.zero_le _
        · exact hshort d' f hf
      · rw [GoMap.lookup_insert_ite, if_pos rfl]
        rfl
    · rename_i f hf
      obtain ⟨rfl, rfl⟩ := Prod.mk.inj (Option.some.inj h)
      exact ⟨.refl c, id, Option.isSome_iff_exists.mpr ⟨f, hf⟩, nofun⟩
  · cases h

/-! ## The account of a call -/

theorem sum_map_set {α : Type*} (f : α → Int) {l : List α} {i : Nat} {a b : α}
    (h : l[i]? = some a) : ((l.set i b).map f).sum = (l.map f).sum - f a + f b := by
  induction l generalizing i with
  | nil => cases h
  | cons x l ih =>
    cases i with
    | zero =>
      obtain rfl := Option.some.inj h
      simp only [List.set_cons_zero, List.map_cons, List.sum_cons]
      omega
    | succ i =>
      simp only [List.set_cons_succ, List.map_cons, List.sum_cons, ih h]
      omega

theorem sum_map_eraseIdx {α : Type*} (f : α → Int) {l : List α} {i : Nat} {a : α}
    (h : l[i]? = some a) : ((l.eraseIdx i).map f).sum = (l.map f).sum - f a := by
  induction l generalizing i with
  | nil => cases h
  | cons x l ih =>
    cases i with
    | zero =>
      obtain rfl := Option.some.inj h
      simp only [List.eraseIdx_cons_zero, List.map_cons, List.sum_cons]
      omega
    | succ i =>
      simp only [List.eraseIdx_cons_succ, List.map_cons, List.sum_cons, ih h]
      omega

/-- The bytes of a list of chunks. -/
def total (css : List (Chunksum D)) : Int := (css.map fun cs => cs.chunk.size).sum

omit [DecidableEq D] in
@[simp] theorem total_cons (cs : Chunksum D) (css : List (Chunksum D)) :
    total (cs :: css) = cs.chunk.size + total css := by
  simp [total]

omit [DecidableEq D] in
theorem Covers.total_eq {a size : Int} {css : List (Chunksum D)} (h : Covers a css size) :
    a + total css = size ∧ 0 ≤ total css := by
  induction css generalizing a with
  | nil =>
    obtain rfl := h
    simp [total]
  | cons cs css ih =>
    obtain ⟨rfl, hle, hrest⟩ := h
    have := ih hrest
    simp only [total_cons, Chunk.size]
    omega

/-- What a download is still to receive; without a file it receives nothing. -/
def Task.owed (t : Task D) : Int :=
  if t.handle = .preValidated then 0 else t.cs.chunk.size - t.received

/-- The layer the loop is at. -/
def Stage.layer : Stage D → List (Layer D)
  | .next => []
  | .opening l => [l]
  | .streaming l _ _ => [l]

/-- The bytes of it that no download was started for. -/
def Stage.owed : Stage D → Int
  | .next => 0
  | .opening l => l.size
  | .streaming _ _ rest => total rest

/-- The first `b` bytes of a layer are accounted for. -/
def Held (R : Registry D) (c : DiskCache D) (p : Pull D) (l : Layer D) (b : Int) : Prop :=
  (AList.lookup l.digest c.blobs).isSome = true ∧ R.Sound c p l.digest 0 b

/-- `done` are the layers behind the loop, and `lost` the bytes that will be
missed in the end. -/
structure Account (R : Registry D) (c : DiskCache D) (p : Pull D) (done : List (Layer D))
    (lost : Int) : Prop where
  layers : R.layers p.manifest = done ++ Stage.layer p.stage ++ p.todo
  lost_nonneg : 0 ≤ lost
  total : p.completed + (p.tasks.map Task.owed).sum + Stage.owed p.stage +
    (p.todo.map Layer.size).sum + lost = p.expected
  done : lost = 0 → ∀ l ∈ done, Held R c p l l.size
  current : lost = 0 → ∀ l handle rest, p.stage = .streaming l handle rest →
    Held R c p l (l.size - Registry.total rest)

structure TaskOk (R : Registry D) (c : DiskCache D) (t : Task D) : Prop where
  start : 0 ≤ t.cs.chunk.start
  received : (t.received : Int) ≤ t.cs.chunk.size
  stop : t.cs.chunk.stop < (R.content t.layer.digest).length
  key : R.content (R.sum (R.cacheKey t.layer t.cs)) = R.cacheKey t.layer t.cs
  file : t.handle = .file → (AList.lookup t.layer.digest c.blobs).isSome = true

structure StreamOk (R : Registry D) (c : DiskCache D) (l : Layer D) (handle : DiskCache.Handle)
    (rest : List (Chunksum D)) : Prop where
  start : 0 ≤ l.size - total rest
  covers : Covers (l.size - total rest) rest l.size
  key : ∀ cs ∈ rest, R.content (R.sum (R.cacheKey l cs)) = R.cacheKey l cs
  file : handle = .file → (AList.lookup l.digest c.blobs).isSome = true

structure PullInv (R : Registry D) (c : DiskCache D) (p : Pull D) : Prop where
  serves : R.Serves p.manifest
  layers : ∀ l ∈ Stage.layer p.stage ++ p.todo, l ∈ R.layers p.manifest
  tasks : ∀ t ∈ p.tasks, TaskOk R c t
  stream : ∀ l handle rest, p.stage = .streaming l handle rest → StreamOk R c l handle rest
  /-- Only a put that fails removes a file. -/
  linked : p.failed = false → ∀ l rest, p.stage ≠ .streaming l .unlinked rest
  account : p.failed = false → ∃ done lost, Account R c p done lost

/-! ### What the steps keep -/

/-- A byte stays accounted for. -/
def Keeps (R : Registry D) (c : DiskCache D) (p : Pull D) (c' : DiskCache D) (p' : Pull D) : Prop :=
  ∀ d k, k < (R.content d).length → R.Right c d k ∨ InFlight p d k →
    R.Right c' d k ∨ InFlight p' d k

theorem Sound.keeps {c c' : DiskCache D} {p p' : Pull D} {d : D} {a b : Int}
    (h : R.Sound c p d a b) (hk : Keeps R c p c' p') (hb : b ≤ (R.content d).length) :
    R.Sound c' p' d a b :=
  fun k hkb ha => hk d k (by omega) (h k hkb ha)

/-- Tasks that are as they were, or more of them. -/
theorem keeps_of_grows {c c' : DiskCache D} {p p' : Pull D} (hg : Grows R c c')
    (htasks : ∀ t ∈ p.tasks, t ∈ p'.tasks) : Keeps R c p c' p' := by
  rintro d k hk (hright | ⟨t, ht, hdata⟩)
  · exact .inl (hg.right d k hk hright)
  · exact .inr ⟨t, htasks t ht, hdata⟩

theorem Held.keeps {c c' : DiskCache D} {p p' : Pull D} {l : Layer D} {b : Int}
    (h : Held R c p l b) (hg : Grows R c c') (hk : Keeps R c p c' p')
    (hb : b ≤ (R.content l.digest).length) : Held R c' p' l b :=
  ⟨hg.isSome _ h.1, h.2.keeps hk hb⟩

theorem TaskOk.grows {c c' : DiskCache D} {t : Task D} (h : TaskOk R c t)
    (hg : ∀ d, (AList.lookup d c.blobs).isSome = true → (AList.lookup d c'.blobs).isSome = true) :
    TaskOk R c' t :=
  { h with file := fun hhandle => hg _ (h.file hhandle) }

theorem StreamOk.grows {c c' : DiskCache D} {l : Layer D} {handle : DiskCache.Handle}
    {rest : List (Chunksum D)} (h : StreamOk R c l handle rest)
    (hg : ∀ d, (AList.lookup d c.blobs).isSome = true → (AList.lookup d c'.blobs).isSome = true) :
    StreamOk R c' l handle rest :=
  { h with file := fun hhandle => hg _ (h.file hhandle) }

theorem Account.mem {c : DiskCache D} {p : Pull D} {done : List (Layer D)} {lost : Int}
    (h : Account R c p done lost) {l : Layer D} (hl : l ∈ done) : l ∈ R.layers p.manifest := by
  rw [h.layers]
  exact List.mem_append_left _ (List.mem_append_left _ hl)

omit [DecidableEq D] in
theorem Serves.size_eq {m : Manifest D} (h : R.Serves m) {l : Layer D} (hl : l ∈ R.layers m) :
    l.size = (R.content l.digest).length :=
  (h.2 l hl).2.1

/-! ### The steps of the loop -/

theorem isSome_of_get {c : DiskCache D} {d : D} {n : Int} (h : c.get d = some n) :
    (AList.lookup d c.blobs).isSome = true := by
  obtain ⟨f, hf, -⟩ := Option.bind_eq_some_iff.mp h
  exact Option.isSome_iff_exists.mpr ⟨f, hf⟩

theorem PullInv.get {c c' : DiskCache D} {p p' : Pull D} (hinv : PullInv R c p)
    (htrust : ∀ l ∈ p.todo.head?, c.get l.digest = some l.size → R.Sound c p l.digest 0 l.size)
    (h : R.stepPull c p .get = some (c', p')) : c' = c ∧ PullInv R c p' := by
  have hmem := hinv.layers
  have haccount := hinv.account
  simp only [stepPull] at h
  split at h
  · rename_i l todo hstage htodo
    rw [hstage, htodo] at hmem
    split at h
    · rename_i hget
      obtain ⟨rfl, rfl⟩ := Prod.mk.inj (Option.some.inj h)
      refine ⟨rfl, hinv.serves, fun l' hl' => hmem l' ?_, hinv.tasks,
        fun l' handle rest hst => ?_, hinv.linked, fun hok => ?_⟩
      · rw [show p.stage = _ from hstage] at hl'
        exact List.mem_cons_of_mem _ hl'
      · rw [show p.stage = _ from hst] at hstage
        cases hstage
      · obtain ⟨done, lost, hacc⟩ := haccount hok
        refine ⟨done ++ [l], lost, ?_, hacc.lost_nonneg, ?_, fun hlost l' hl' => ?_,
          fun _ l' handle' rest hst => ?_⟩
        · have hlayers := hacc.layers
          rw [hstage, htodo] at hlayers
          rw [show R.layers p.manifest = _ from hlayers]
          simp [hstage, Stage.layer]
        · have htotal := hacc.total
          rw [hstage, htodo] at htotal
          simp only [hstage, List.map_cons, List.sum_cons] at htotal ⊢
          omega
        · rcases List.mem_append.mp hl' with hl' | hl'
          · exact hacc.done hlost l' hl'
          · obtain rfl := List.mem_singleton.mp hl'
            refine ⟨isSome_of_get hget, htrust l' ?_ hget⟩
            rw [htodo]
            rfl
        · rw [show p.stage = _ from hst] at hstage
          cases hstage
    · obtain ⟨rfl, rfl⟩ := Prod.mk.inj (Option.some.inj h)
      refine ⟨rfl, hinv.serves, hmem, hinv.tasks, nofun, fun _ => nofun, fun hok => ?_⟩
      obtain ⟨done, lost, hacc⟩ := haccount hok
      refine ⟨done, lost, ?_, hacc.lost_nonneg, ?_, hacc.done, fun _ => nofun⟩
      · have hlayers := hacc.layers
        rw [hstage, htodo] at hlayers
        rw [show R.layers p.manifest = _ from hlayers]
        simp [Stage.layer]
      · have htotal := hacc.total
        rw [hstage, htodo] at htotal
        simp only [Stage.owed, List.map_cons, List.sum_cons] at htotal ⊢
        omega
  · cases h

theorem PullInv.chunked {c c' : DiskCache D} {p p' : Pull D} {opened : Bool}
    (hinv : PullInv R c p)
    (htrust : ∀ l ∈ p.stage.opening?, opened = false → l.size ≠ 0)
    (h : R.stepPull c p (.chunked opened) = some (c', p')) :
    (R.Short c → R.Short c') ∧ PullInv R c' p' := by
  have hmem := hinv.layers
  have haccount := hinv.account
  simp only [stepPull] at h
  split at h
  · rename_i l hstage
    rw [hstage] at hmem
    have hl : l ∈ R.layers p.manifest := hmem l (by simp [Stage.layer])
    have hsize := hinv.serves.size_eq hl
    split at h
    · -- the layer is left out, and its bytes will be missed
      rename_i hnone
      obtain ⟨rfl, rfl⟩ := Prod.mk.inj (Option.some.inj h)
      have hopened : opened = false := by
        cases opened with
        | false => rfl
        | true =>
          simp only [DiskCache.chunked, if_true] at hnone
          split at hnone
          · cases hnone
          · split at hnone <;> cases hnone
      refine ⟨id, hinv.serves, fun l' hl' => hmem l' (List.mem_cons_of_mem _ hl'), hinv.tasks,
        nofun, fun _ => nofun, fun hok => ?_⟩
      obtain ⟨done, lost, hacc⟩ := haccount hok
      have hpos : l.size ≠ 0 := htrust l (by rw [hstage]; rfl) hopened
      have hnonneg := hacc.lost_nonneg
      refine ⟨done ++ [l], lost + l.size, ?_, by omega, ?_, fun hlost => by omega,
        fun hlost => by omega⟩
      · have hlayers := hacc.layers
        rw [hstage] at hlayers
        rw [show R.layers p.manifest = _ from hlayers]
        simp [Stage.layer]
      · have htotal := hacc.total
        rw [hstage] at htotal
        simp only [Stage.owed] at htotal ⊢
        omega
    · rename_i c₁ handle hsome
      obtain ⟨rfl, rfl⟩ := Prod.mk.inj (Option.some.inj h)
      obtain ⟨hgrows, hshort, hfile, hhandle⟩ := chunked_some (R := R) hsome
      obtain ⟨-, -, hcovers, hkey⟩ := hinv.serves.2 l hl
      have htotal := hcovers.total_eq
      refine ⟨hshort, hinv.serves, hmem, fun t ht => (hinv.tasks t ht).grows hgrows.isSome,
        fun l' handle' rest hst => ?_, fun _ l' rest hst => ?_, fun hok => ?_⟩
      · obtain ⟨rfl, -, rfl⟩ := Stage.streaming.inj hst
        have hzero : l.size - total (R.chunksums l) = 0 := by omega
        exact ⟨by omega, by rwa [hzero], hkey, fun _ => hfile⟩
      · exact hhandle (Stage.streaming.inj hst).2.1
      · obtain ⟨done, lost, hacc⟩ := haccount hok
        refine ⟨done, lost, ?_, hacc.lost_nonneg, ?_, fun hlost l' hl' => ?_,
          fun _ l' handle' rest hst => ?_⟩
        · have hlayers := hacc.layers
          rw [hstage] at hlayers
          exact hlayers
        · have hsum := hacc.total
          rw [hstage] at hsum
          simp only [Stage.owed] at hsum ⊢
          omega
        · exact (hacc.done hlost l' hl').keeps hgrows (keeps_of_grows hgrows fun _ => id)
            (Int.le_of_eq (hinv.serves.size_eq (hacc.mem hl')))
        · obtain ⟨rfl, -, rfl⟩ := Stage.streaming.inj hst
          refine ⟨hfile, fun k hk => ?_⟩
          omega
  · cases h

theorem PullInv.chunksum {c c' : DiskCache D} {p p' : Pull D} (hinv : PullInv R c p)
    (htrust : ∀ e ∈ p.stage.chunk?, (c.get (R.sum (R.cacheKey e.1 e.2))).isSome = true →
      R.Sound c p e.1.digest e.2.chunk.start (e.2.chunk.stop + 1))
    (h : R.stepPull c p .chunksum = some (c', p')) : c' = c ∧ PullInv R c p' := by
  have hmem := hinv.layers
  have haccount := hinv.account
  simp only [stepPull] at h
  split at h
  · rename_i l handle cs rest hstage
    rw [hstage] at hmem
    have hsize := hinv.serves.size_eq (hmem l (by simp [Stage.layer]))
    obtain ⟨hstart, hcovers, hkey, hfile⟩ := hinv.stream l handle (cs :: rest) hstage
    obtain ⟨hat, hle, hcovers⟩ := hcovers
    have htotal := hcovers.total_eq
    have hnext : l.size - total rest = cs.chunk.stop + 1 := by omega
    have hchunk : cs.chunk.size = cs.chunk.stop - cs.chunk.start + 1 := rfl
    have hstream : StreamOk R c l handle rest := by
      refine ⟨by omega, by rwa [hnext], fun cs' hcs' => hkey cs' ?_, hfile⟩
      exact List.mem_cons_of_mem _ hcs'
    have hlayers : ∀ {done lost}, Account R c p done lost →
        R.layers p.manifest = done ++ [l] ++ p.todo := by
      intro done lost hacc
      have hlayers := hacc.layers
      rwa [hstage] at hlayers
    have hsum : ∀ {done lost}, Account R c p done lost → p.completed +
        (p.tasks.map Task.owed).sum + (cs.chunk.size + total rest) +
          (p.todo.map Layer.size).sum + lost = p.expected := by
      intro done lost hacc
      have hsum := hacc.total
      rwa [hstage, Stage.owed, total_cons] at hsum
    have hlinked : p.failed = false → ∀ l' rest',
        Stage.streaming l handle rest ≠ .streaming l' .unlinked rest' := by
      intro hok l' rest' hst
      obtain ⟨-, rfl, -⟩ := Stage.streaming.inj hst
      exact hinv.linked hok l (cs :: rest) hstage
    split at h
    · rename_i hget
      obtain ⟨rfl, rfl⟩ := Prod.mk.inj (Option.some.inj h)
      refine ⟨rfl, hinv.serves, hmem, hinv.tasks, fun l' handle' rest' hst => ?_, hlinked,
        fun hok => ?_⟩
      · obtain ⟨rfl, rfl, rfl⟩ := Stage.streaming.inj hst
        exact hstream
      · obtain ⟨done, lost, hacc⟩ := haccount hok
        refine ⟨done, lost, hlayers hacc, hacc.lost_nonneg, ?_, hacc.done,
          fun hlost l' handle' rest' hst => ?_⟩
        · have := hsum hacc
          simp only [Stage.owed]
          omega
        · obtain ⟨rfl, -, rfl⟩ := Stage.streaming.inj hst
          obtain ⟨hsome, hsound⟩ := hacc.current hlost _ _ _ hstage
          rw [← hat] at hsound
          rw [hnext]
          exact ⟨hsome, hsound.append (htrust (l, cs) (by rw [hstage]; rfl) hget)⟩
    · obtain ⟨rfl, rfl⟩ := Prod.mk.inj (Option.some.inj h)
      refine ⟨rfl, hinv.serves, hmem, fun t ht => ?_, fun l' handle' rest' hst => ?_, hlinked,
        fun hok => ?_⟩
      · rcases List.mem_append.mp ht with ht | ht
        · exact hinv.tasks t ht
        · obtain rfl := List.mem_singleton.mp ht
          have hlo : 0 ≤ cs.chunk.start := by omega
          have hhi : cs.chunk.stop < (R.content l.digest).length := by omega
          refine ⟨hlo, ?_, hhi, hkey cs List.mem_cons_self, hfile⟩
          show ((0 : Nat) : Int) ≤ cs.chunk.size
          omega
      · obtain ⟨rfl, rfl, rfl⟩ := Stage.streaming.inj hst
        exact hstream
      · obtain ⟨done, lost, hacc⟩ := haccount hok
        have hnonneg := hacc.lost_nonneg
        have hsum := hsum hacc
        have hkeeps : ∀ p' : Pull D, p'.tasks = p.tasks ++ [⟨l, cs, handle, 0⟩] →
            Keeps R c p c p' := by
          intro p' htasks
          refine keeps_of_grows (.refl c) fun t ht => ?_
          rw [htasks]
          exact List.mem_append_left _ ht
        -- a chunk that is not written is lost from now on
        let missed : Int := if handle = .preValidated then cs.chunk.size else 0
        have hmissed : 0 ≤ missed := by
          simp only [missed]
          split <;> omega
        refine ⟨done, lost + missed, hlayers hacc, by omega, ?_, fun hlost l' hl' => ?_,
          fun hlost l' handle' rest' hst => ?_⟩
        · simp only [Stage.owed, List.map_append, List.map_cons, List.map_nil, List.sum_append,
            List.sum_cons, List.sum_nil, Task.owed, missed]
          split <;> omega
        · exact (hacc.done (by omega) l' hl').keeps (.refl c) (hkeeps _ rfl)
            (Int.le_of_eq (hinv.serves.size_eq (hacc.mem hl')))
        · obtain ⟨rfl, -, rfl⟩ := Stage.streaming.inj hst
          obtain ⟨hsome, hsound⟩ := hacc.current (by omega) _ _ _ hstage
          rw [← hat] at hsound
          rw [hnext]
          refine ⟨hsome, (hsound.keeps (hkeeps _ rfl) (by omega)).append fun k hk ha => .inr ?_⟩
          have hhi : (k : Int) ≤ cs.chunk.stop := by omega
          refine ⟨⟨l, cs, handle, 0⟩, List.mem_append_right _ List.mem_cons_self, rfl, ?_,
            ?_, hhi⟩
          · cases handle with
            | file => rfl
            | preValidated =>
              have : missed = cs.chunk.size := rfl
              omega
            | unlinked => exact absurd rfl (hlinked hok l rest)
          · show cs.chunk.start + ((0 : Nat) : Int) ≤ k
            omega
  · cases h

theorem PullInv.endStream {c c' : DiskCache D} {p p' : Pull D} (hinv : PullInv R c p)
    (h : R.stepPull c p .endStream = some (c', p')) : c' = c ∧ PullInv R c p' := by
  have hmem := hinv.layers
  have haccount := hinv.account
  simp only [stepPull] at h
  split at h
  · rename_i l handle rest hstage
    obtain ⟨rfl, rfl⟩ := Prod.mk.inj (Option.some.inj h)
    rw [hstage] at hmem
    obtain ⟨hstart, hcovers, hkey, hfile⟩ := hinv.stream l handle rest hstage
    have htotal := hcovers.total_eq
    refine ⟨rfl, hinv.serves, fun l' hl' => hmem l' (List.mem_cons_of_mem _ hl'), hinv.tasks,
      nofun, fun _ => nofun, fun hok => ?_⟩
    obtain ⟨done, lost, hacc⟩ := haccount hok
    have hnonneg := hacc.lost_nonneg
    refine ⟨done ++ [l], lost + total rest, ?_, by omega, ?_, fun hlost l' hl' => ?_, fun _ => nofun⟩
    · have hlayers := hacc.layers
      rw [hstage] at hlayers
      rw [show R.layers p.manifest = _ from hlayers]
      simp [Stage.layer]
    · have hsum := hacc.total
      rw [hstage] at hsum
      simp only [Stage.owed] at hsum ⊢
      omega
    · rcases List.mem_append.mp hl' with hl' | hl'
      · exact hacc.done (by omega) l' hl'
      · obtain rfl := List.mem_singleton.mp hl'
        have hheld := hacc.current (by omega) _ _ _ hstage
        rwa [show l'.size - total rest = l'.size by omega] at hheld
  · cases h

/-! ### The steps of a download -/

/-- A step of a download leaves the loop where it is. -/
theorem PullInv.task {c c' : DiskCache D} {p : Pull D} {tasks : List (Task D)} {completed : Int}
    (hinv : PullInv R c p) (hgrows : Grows R c c')
    (htasks : ∀ t ∈ tasks, TaskOk R c' t)
    (hkeeps : Keeps R c p c' { p with tasks := tasks, completed := completed })
    (hsum : p.completed + (p.tasks.map Task.owed).sum =
      completed + (tasks.map Task.owed).sum) :
    PullInv R c' { p with tasks := tasks, completed := completed } := by
  refine ⟨hinv.serves, hinv.layers, htasks,
    fun l handle rest hst => (hinv.stream l handle rest hst).grows hgrows.isSome, hinv.linked,
    fun hok => ?_⟩
  obtain ⟨done, lost, hacc⟩ := hinv.account hok
  refine ⟨done, lost, hacc.layers, hacc.lost_nonneg, ?_, fun hlost l hl => ?_,
    fun hlost l handle rest hst => ?_⟩
  · have := hacc.total
    simp only at this ⊢
    omega
  · exact (hacc.done hlost l hl).keeps hgrows hkeeps
      (Int.le_of_eq (hinv.serves.size_eq (hacc.mem hl)))
  · have hst : p.stage = _ := hst
    have htotal := (hinv.stream l handle rest hst).covers.total_eq
    have hl : l ∈ R.layers p.manifest := by
      refine hinv.layers l ?_
      rw [hst]
      simp [Stage.layer]
    have hsize := hinv.serves.size_eq hl
    exact (hacc.current hlost l handle rest hst).keeps hgrows hkeeps (by omega)

/-- The bytes go to the file, or to one that was removed. -/
theorem receive_file {c : DiskCache D} {h : DiskCache.Handle} {d : D} {off n : Nat}
    (hn : off + n ≤ (R.content d).length) :
    R.Grows c (if h = .file then c.write d off (((R.content d).drop off).take n) else c) ∧
      (R.Short c →
        R.Short (if h = .file then c.write d off (((R.content d).drop off).take n) else c)) := by
  split
  · exact ⟨grows_write hn, fun hshort => short_write hshort hn⟩
  · exact ⟨.refl c, id⟩

theorem PullInv.receive {c c' : DiskCache D} {p p' : Pull D} {i n : Nat} (hinv : PullInv R c p)
    (h : R.stepPull c p (.receive i n) = some (c', p')) :
    (R.Short c → R.Short c') ∧ PullInv R c' p' := by
  simp only [stepPull] at h
  split at h
  · cases h
  · rename_i t ht
    split at h
    · rename_i hcond
      obtain ⟨hfresh, hpos, hfits, -⟩ := hcond
      obtain ⟨rfl, rfl⟩ := Prod.mk.inj (Option.some.inj h)
      have hmem := List.mem_of_getElem? ht
      obtain ⟨hstart, hreceived, hstop, hkey, hfile⟩ := hinv.tasks t hmem
      have hchunk : t.cs.chunk.size = t.cs.chunk.stop - t.cs.chunk.start + 1 := rfl
      have hfits' : t.cs.chunk.start.toNat + t.received + n ≤
          (R.content t.layer.digest).length := by omega
      obtain ⟨hgrows, hshort⟩ := receive_file (R := R) (c := c) (h := t.handle) hfits'
      refine ⟨hshort, hinv.task hgrows ?_ ?_ ?_⟩
      · intro t' ht'
        rcases List.mem_or_eq_of_mem_set ht' with ht' | rfl
        · exact (hinv.tasks t' ht').grows hgrows.isSome
        · exact ⟨hstart, hfits, hstop, hkey, fun hhandle => hgrows.isSome _ (hfile hhandle)⟩
      · rintro d k hk (hright | ⟨t', ht', hdigest, hpre, hlo, hhi⟩)
        · exact .inl (hgrows.right d k hk hright)
        · obtain ⟨j, hj⟩ := List.mem_iff_getElem?.mp ht'
          by_cases hij : i = j
          · subst hij
            rw [ht] at hj
            obtain rfl := Option.some.inj hj
            subst hdigest
            by_cases hnow : (k : Int) < t.cs.chunk.start + t.received + n
            · refine .inl ?_
              rw [if_pos hpre]
              exact right_write hfits' (hfile hpre) (by omega) (by omega)
            · have hlo : t.cs.chunk.start + (t.received + n : Nat) ≤ (k : Int) := by omega
              have hset := List.mem_set (List.getElem?_eq_some_iff.mp ht).1
                { t with received := t.received + n }
              exact .inr ⟨_, hset, rfl, hpre, hlo, hhi⟩
          · refine .inr ⟨t', List.mem_iff_getElem?.mpr ⟨j, ?_⟩, hdigest, hpre, hlo, hhi⟩
            rw [← hj]
            exact List.getElem?_set_ne hij
      · rw [sum_map_set Task.owed ht]
        rw [Task.owed, Task.owed, if_neg hfresh, if_neg hfresh]
        show _ = p.completed + n + (_ - (t.cs.chunk.size - t.received) +
          (t.cs.chunk.size - (t.received + n : Nat)))
        omega
    · cases h

theorem layer_unlink (c : DiskCache D) (st : Stage D) :
    Stage.layer (st.unlink c) = Stage.layer st := by
  cases st <;> rfl

theorem unlink_eq_streaming {c : DiskCache D} {st : Stage D} {l : Layer D}
    {handle : DiskCache.Handle} {rest : List (Chunksum D)}
    (h : st.unlink c = .streaming l handle rest) :
    ∃ old : DiskCache.Handle, st = .streaming l old rest ∧ handle = old.unlink c l.digest := by
  cases st with
  | next => cases h
  | opening l' => cases h
  | streaming l' old rest' =>
    obtain ⟨rfl, rfl, rfl⟩ := Stage.streaming.inj h
    exact ⟨old, rfl, rfl⟩

/-- A call that is to fail goes on with the files that are left. -/
theorem PullInv.putFails {c : DiskCache D} {p : Pull D} {tasks : List (Task D)}
    (hinv : PullInv R c p) (c' : DiskCache D) (htasks : ∀ t ∈ tasks, t ∈ p.tasks) :
    PullInv R c' ({ p with tasks := tasks }.putFails c') := by
  refine ⟨hinv.serves, fun l hl => hinv.layers l ?_, fun t ht => ?_, fun l handle rest hst => ?_,
    nofun, nofun⟩
  · rwa [← layer_unlink c']
  · obtain ⟨t', ht', rfl⟩ := List.mem_map.mp ht
    obtain ⟨hstart, hreceived, hstop, hkey, -⟩ := hinv.tasks t' (htasks t' ht')
    exact ⟨hstart, hreceived, hstop, hkey, DiskCache.Handle.unlink_eq_file⟩
  · obtain ⟨old, hold, rfl⟩ := unlink_eq_streaming hst
    obtain ⟨hstart, hcovers, hkey, -⟩ := hinv.stream l old rest hold
    exact ⟨hstart, hcovers, hkey, DiskCache.Handle.unlink_eq_file⟩

theorem PullInv.finish {c c' : DiskCache D} {p p' : Pull D} {i : Nat} {o : Outcome}
    (hinv : PullInv R c p) (h : R.stepPull c p (.finish i o) = some (c', p')) :
    (R.Short c → R.Short c') ∧ PullInv R c' p' := by
  simp only [stepPull] at h
  split at h
  · cases h
  · rename_i t ht
    split at h
    · rename_i hdone
      obtain ⟨rfl, rfl⟩ := Prod.mk.inj (Option.some.inj h)
      have hkey := (hinv.tasks t (List.mem_of_getElem? ht)).key
      cases hput : c.putBytes R.sum (R.sum (R.cacheKey t.layer t.cs)) (R.cacheKey t.layer t.cs) o with
      | mk c₁ ok =>
        have hshort := short_putBytes (R := R) (c := c) (o := o)
          (d := R.sum (R.cacheKey t.layer t.cs))
        rw [hkey, hput] at hshort
        refine ⟨hshort, ?_⟩
        cases ok with
        | false =>
          rw [if_neg Bool.false_ne_true]
          exact hinv.putFails c₁ fun t' => List.mem_of_mem_eraseIdx
        | true =>
          have hgrows : Grows R c c₁ :=
            grows_putBytes (d := R.sum (R.cacheKey t.layer t.cs)) (by rw [hkey]; exact hput)
          have htasks : ∀ t' ∈ p.tasks.eraseIdx i, TaskOk R c₁ t' := fun t' ht' =>
            (hinv.tasks t' (List.mem_of_mem_eraseIdx ht')).grows hgrows.isSome
          rw [if_pos rfl]
          refine hinv.task hgrows htasks ?_ ?_
          · rintro d k hk (hright | ⟨t', ht', hdigest, hpre, hlo, hhi⟩)
            · exact .inl (hgrows.right d k hk hright)
            · obtain ⟨j, hj⟩ := List.mem_iff_getElem?.mp ht'
              by_cases hij : j = i
              · -- the download has received all of its bytes
                subst hij
                rw [ht] at hj
                obtain rfl := Option.some.inj hj
                have hchunk : t.cs.chunk.size = t.cs.chunk.stop - t.cs.chunk.start + 1 := rfl
                rw [hpre] at hdone
                have := hdone.resolve_left nofun
                omega
              · exact .inr ⟨t', List.mem_eraseIdx_iff_getElem?.mpr ⟨j, hij, hj⟩, hdigest, hpre,
                  hlo, hhi⟩
          · have howed : Task.owed t = 0 := by
              rw [Task.owed]
              split
              · rfl
              · rename_i hpre
                have := hdone.resolve_left hpre
                omega
            rw [sum_map_eraseIdx Task.owed ht, howed]
            omega
    · cases h

theorem PullInv.fail {c c' : DiskCache D} {p p' : Pull D} {i n : Nat} (hinv : PullInv R c p)
    (h : R.stepPull c p (.fail i n) = some (c', p')) : c' = c ∧ PullInv R c p' := by
  simp only [stepPull] at h
  split at h
  · cases h
  · split at h
    · obtain ⟨rfl, rfl⟩ := Prod.mk.inj (Option.some.inj h)
      exact ⟨rfl, hinv.serves, hinv.layers,
        fun t ht => hinv.tasks t (List.mem_of_mem_eraseIdx ht), hinv.stream, nofun, nofun⟩
    · cases h

theorem PullInv.step {s : State D} {p p' : Pull D} {c' : DiskCache D} {a : Label D}
    (hp : s.pull = some p) (hinv : PullInv R s.cache p) (htrust : R.Trusted s a)
    (h : R.stepPull s.cache p a = some (c', p')) :
    (R.Short s.cache → R.Short c') ∧ PullInv R c' p' := by
  have hmem : p ∈ s.pull := hp
  cases a with
  | get =>
    obtain ⟨rfl, hinv'⟩ := hinv.get (htrust p hmem) h
    exact ⟨id, hinv'⟩
  | chunked opened => exact hinv.chunked (htrust p hmem) h
  | chunksum =>
    obtain ⟨rfl, hinv'⟩ := hinv.chunksum (htrust p hmem) h
    exact ⟨id, hinv'⟩
  | endStream =>
    obtain ⟨rfl, hinv'⟩ := hinv.endStream h
    exact ⟨id, hinv'⟩
  | receive i n => exact hinv.receive h
  | finish i o => exact hinv.finish h
  | fail i n =>
    obtain ⟨rfl, hinv'⟩ := hinv.fail h
    exact ⟨id, hinv'⟩
  | pull m => cases h
  | wait o₁ o₂ => cases h
  | delete d => cases h

/-! ### The end of a call -/

/-- With every byte accounted for, each file is the blob. -/
theorem PullInv.files {c : DiskCache D} {p : Pull D} (hinv : PullInv R c p) (hshort : R.Short c)
    (hidle : p.idle = true) (hok : p.failed = false) (hall : p.completed = p.expected) :
    ∀ l ∈ R.layers p.manifest, AList.lookup l.digest c.blobs = some (R.content l.digest) := by
  have hdata : p.stage = .next ∧ p.todo = [] ∧ p.tasks = [] := by
    simp only [Pull.idle] at hidle
    split at hidle
    · rename_i hstage
      rw [Bool.and_eq_true, List.isEmpty_iff, List.isEmpty_iff] at hidle
      exact ⟨hstage, hidle⟩
    · cases hidle
  obtain ⟨hstage, htodo, htasks⟩ := hdata
  obtain ⟨done, lost, hacc⟩ := hinv.account hok
  have hlayers := hacc.layers
  have hsum := hacc.total
  rw [hstage, htodo] at hlayers hsum
  rw [htasks] at hsum
  simp only [Stage.layer, Stage.owed, List.append_nil, List.map_nil, List.sum_nil] at hlayers hsum
  intro l hl
  have hsize := hinv.serves.size_eq hl
  rw [hlayers] at hl
  obtain ⟨hsome, hsound⟩ := hacc.done (by omega) l hl
  obtain ⟨f, hf⟩ := Option.isSome_iff_exists.mp hsome
  rw [hf]
  refine congrArg some (eq_content hshort hf fun k hk => ?_)
  refine (hsound k (by omega) (by omega)).resolve_right ?_
  rintro ⟨t, ht, -⟩
  rw [htasks] at ht
  exact absurd ht List.not_mem_nil

theorem blobs_link (sum : File → D) (c : DiskCache D) (name : GoString) (d : D) (o : Outcome) :
    (c.link sum name d o).1.blobs = c.blobs := by
  rw [DiskCache.link]
  split <;> rfl

theorem short_commit {c : DiskCache D} {p : Pull D} (o₁ o₂ : Outcome) (hinv : PullInv R c p)
    (hshort : R.Short c) : R.Short (R.commit c p o₁ o₂).cache := by
  have hput := short_putBytes (d := R.sum p.manifest.data) (o := o₁) hshort
  rw [hinv.serves.1] at hput
  simp only [commit]
  split
  · exact hshort
  split
  · exact hput
  split
  · intro d f hf
    rw [blobs_link] at hf
    exact hput d f hf
  · intro d f hf
    rw [blobs_link] at hf
    exact hput d f hf

theorem commit_complete {c : DiskCache D} {p : Pull D} {o₁ o₂ : Outcome} {m : Manifest D}
    (hinv : PullInv R c p) (hshort : R.Short c) (hidle : p.idle = true)
    (htrust : ∀ f ∈ c.manifest p.manifest.name, f.length = p.manifest.data.length →
      R.sum f = R.sum p.manifest.data)
    (h : (R.commit c p o₁ o₂).returned = some m) :
    R.Complete (R.commit c p o₁ o₂).cache m := by
  simp only [commit] at h ⊢
  split at h
  · cases h
  rename_i hdone
  rw [not_or, not_not, Bool.not_eq_true] at hdone
  rw [if_neg (by simp [hdone])]
  split at h
  · cases h
  rename_i hput
  rw [if_neg hput]
  split at h
  · cases h
  rename_i hlink
  rw [if_neg hlink]
  obtain rfl := Option.some.inj h
  rw [Bool.not_eq_false] at hput hlink
  have hfiles := hinv.files hshort hidle hdone.1 hdone.2
  have hserves := hinv.serves
  -- the put blob
  have hblob : (∀ l ∈ R.layers p.manifest, AList.lookup l.digest
        (c.putBytes R.sum (R.sum p.manifest.data) p.manifest.data o₁).1.blobs =
          some (R.content l.digest)) ∧
      ∀ b, AList.lookup (R.sum p.manifest.data)
        (c.putBytes R.sum (R.sum p.manifest.data) p.manifest.data o₁).1.blobs = some b →
          b.length = p.manifest.data.length := by
    rcases DiskCache.putBytes_ok (Prod.ext rfl hput) with ⟨heq, hsize⟩ | heq
    · rw [show (c.putBytes R.sum (R.sum p.manifest.data) p.manifest.data o₁).1 = c from heq]
      refine ⟨hfiles, fun b hb => ?_⟩
      rw [hb] at hsize
      exact Option.some.inj hsize
    · rw [show (c.putBytes R.sum (R.sum p.manifest.data) p.manifest.data o₁).1 = _ from heq]
      constructor
      · intro l hl
        rw [GoMap.lookup_insert_ite]
        split
        · rename_i hdigest
          rw [hdigest, hserves.1]
        · exact hfiles l hl
      · intro b hb
        rw [GoMap.lookup_insert_ite, if_pos rfl] at hb
        rw [Option.some.inj hb]
  obtain ⟨b, f, hb, hblobs, hf, hfrom⟩ := DiskCache.link_ok (Prod.ext rfl hlink)
  refine ⟨fun l hl => ⟨R.content l.digest, ?_, (hserves.size_eq hl).symm, (hserves.2 l hl).1⟩,
    f, hf, ?_⟩
  · rw [hblobs]
    exact hblob.1 l hl
  · have hlen := hblob.2 b hb
    rcases hfrom with ⟨hold, hsize⟩ | ⟨rfl, rfl | hsum⟩
    · exact htrust f hold (hsize.trans hlen)
    · rw [List.eq_nil_of_length_eq_zero hlen.symm]
    · exact hsum

/-! ## Every run -/

theorem step_cases {s s' : State D} {a : Label D} (h : R.step s a = some s') :
    (∃ m, s.pull = none ∧ a = .pull m ∧ s' = R.start s m) ∨
    (∃ d, s.pull = none ∧ a = .delete d ∧
      s' = ⟨{ s.cache with blobs := AList.erase d s.cache.blobs }, none, none⟩) ∨
    (∃ p o₁ o₂, s.pull = some p ∧ a = .wait o₁ o₂ ∧ p.idle = true ∧
      s' = R.commit s.cache p o₁ o₂) ∨
    ∃ p c' p', s.pull = some p ∧ R.stepPull s.cache p a = some (c', p') ∧
      s' = { s with cache := c', pull := some p' } := by
  simp only [step] at h
  split at h
  · rename_i m hp
    exact .inl ⟨m, hp, rfl, (Option.some.inj h).symm⟩
  · rename_i d hp
    refine .inr (.inl ⟨d, hp, rfl, ?_⟩)
    rw [← Option.some.inj h, hp]
  · rename_i p o₁ o₂ hp
    split at h
    · exact .inr (.inr (.inl ⟨p, o₁, o₂, hp, rfl, ‹_›, (Option.some.inj h).symm⟩))
    · cases h
  · rename_i p hp _
    obtain ⟨⟨c', p'⟩, hstep, rfl⟩ := Option.map_eq_some_iff.mp h
    exact .inr (.inr (.inr ⟨p, c', p', hp, hstep, rfl⟩))
  · cases h

structure Inv (R : Registry D) (s : State D) : Prop where
  short : R.Short s.cache
  pull : ∀ p, s.pull = some p → PullInv R s.cache p
  returned : ∀ m, s.returned = some m → s.pull = none ∧ R.Complete s.cache m

theorem start_inv {s : State D} {m : Manifest D} (hinv : Inv R s) (hserves : R.Serves m) : Inv R (R.start s m) := by
  simp only [start]
  split
  · exact ⟨hinv.short, hinv.pull, nofun⟩
  · refine ⟨hinv.short, fun p hp => ?_, nofun⟩
    obtain rfl := Option.some.inj hp
    refine ⟨hserves, fun l hl => hl, nofun, nofun, fun _ => nofun,
      fun _ => ⟨[], 0, rfl, le_refl 0, ?_, ?_, ?_⟩⟩
    · simp [Stage.owed]
    · intro _ l hl
      exact absurd hl List.not_mem_nil
    · intro _
      exact nofun

theorem step_inv {s s' : State D} {a : Label D} (hinv : Inv R s) (hserved : R.Served a)
    (htrust : R.Trusted s a) (h : R.step s a = some s') : Inv R s' := by
  rcases step_cases h with ⟨m, hp, rfl, rfl⟩ | ⟨d, hp, rfl, rfl⟩ | ⟨p, o₁, o₂, hp, rfl, hidle, rfl⟩ |
    ⟨p, c', p', hp, hstep, rfl⟩
  · exact start_inv hinv hserved
  · refine ⟨fun d' f hf => ?_, nofun, nofun⟩
    rw [GoMap.lookup_erase_ite] at hf
    split at hf
    · cases hf
    · exact hinv.short d' f hf
  · have hpull := hinv.pull p hp
    have hnone : (R.commit s.cache p o₁ o₂).pull = none := by
      simp only [commit]
      split
      · rfl
      split
      · rfl
      split <;> rfl
    refine ⟨short_commit o₁ o₂ hpull hinv.short, fun p' hp' => ?_, fun m hm => ⟨hnone, ?_⟩⟩
    · rw [hnone] at hp'
      cases hp'
    · exact commit_complete hpull hinv.short hidle (htrust p hp) hm
  · obtain ⟨hshort, hpull⟩ := (hinv.pull p hp).step hp htrust hstep
    refine ⟨hshort hinv.short, fun q hq => ?_, fun m hm => ?_⟩
    · obtain rfl := Option.some.inj hq
      exact hpull
    · have hnone := (hinv.returned m hm).1
      rw [hp] at hnone
      cases hnone

theorem run_inv (R : Registry D) :
    (R.system.restrict fun s a => R.Trusted s a).Invariant (Inv R) := by
  refine TSys.Inductive.invariant ⟨fun s hs => ⟨hs.blobs, fun p hp => ?_, fun m hm => ?_⟩, ?_⟩
  · rw [hs.pull] at hp
    cases hp
  · rw [hs.returned] at hm
    cases hm
  · rintro s a s' hinv ⟨htrust, hserved, hstep⟩
    exact step_inv hinv hserved htrust hstep

/-- Where all that the calls go by is right, a call that returns nil leaves every
file complete and the name linked. -/
theorem pull_complete (R : Registry D) (s : State D) (m : Manifest D)
    (hs : (R.system.restrict fun s a => R.Trusted s a).Reachable s)
    (hreturned : s.returned = some m) : R.Complete s.cache m :=
  ((run_inv R s hs).returned m hreturned).2

/-- A digest is the bytes themselves. Layers of two bytes or more come in two chunks. -/
def listed : Registry (List UInt8) where
  sum b := b
  string d := d
  isValid _ := true
  maxChunkingThreshold := 2
  content d := d
  stream
    | [] => []
    | a :: rest => [⟨⟨0, 0⟩, [a]⟩, ⟨⟨1, rest.length⟩, rest⟩]

/-- A manifest with one layer. -/
def oneLayer (data layer : List UInt8) : Manifest (List UInt8) :=
  ⟨lit "library/model:tag", data, [⟨layer, layer.length⟩], none⟩

/-- A call that downloads the layer. -/
def download (m : Manifest (List UInt8)) : List (Label (List UInt8)) :=
  [.pull m, .get, .chunked true, .chunksum, .chunksum, .endStream, .receive 1 1, .receive 0 1,
    .finish 0 .ok, .finish 0 .ok, .wait .ok .ok]

theorem fresh_empty (R : Registry D) : R.Fresh ⟨⟨∅, ∅⟩, none, none⟩ := by
  refine ⟨fun d f hf => ?_, rfl, rfl, rfl⟩
  rw [GoMap.lookup_empty] at hf
  cases hf

theorem pull_complete_download : ∃ s,
    (listed.system.restrict fun s a => listed.Trusted s a).Reachable s ∧
      s.returned = some (oneLayer [1] [7, 8]) ∧
        listed.Complete s.cache (oneLayer [1] [7, 8]) := by
  obtain ⟨s, hs, hreturned⟩ := TSys.Reachable.exists_of_run
    (T := listed.system.restrict fun s a => listed.Trusted s a)
    (f := fun s a => if listed.Trusted s a ∧ listed.Served a then listed.step s a else none)
    (P := fun s => s.returned = some (oneLayer [1] [7, 8]))
    (fun s a s' h => by
      split at h
      · rename_i hguard
        exact ⟨hguard.1, hguard.2, h⟩
      · cases h)
    (.init (fresh_empty listed)) (download (oneLayer [1] [7, 8])) (by decide)
  exact ⟨s, hs, hreturned, pull_complete listed s _ hs hreturned⟩

/-- A run of the calls from an empty cache. -/
theorem exists_listed (as : List (Label (List UInt8))) (P : State (List UInt8) → Prop)
    [DecidablePred P]
    (h : (as.foldlM (fun s a => if listed.Served a then listed.step s a else none)
      ⟨⟨∅, ∅⟩, none, none⟩).any (fun s => decide (P s)) = true) :
    ∃ s, listed.system.Reachable s ∧ P s := by
  refine TSys.Reachable.exists_of_run (fun s a s' hstep => ?_) (.init (fresh_empty listed)) as h
  split at hstep
  · exact ⟨‹_›, hstep⟩
  · cases hstep

/-- Calls that return nil with a hole in the file after a failed one, without the bytes
of a file that was deleted, with another manifest of the same size under the name, and
without the file of an empty layer. -/
theorem pull_incomplete :
    (∃ s, listed.system.Reachable s ∧ s.returned = some (oneLayer [1] [7, 8]) ∧
      AList.lookup [7, 8] s.cache.blobs = some [0, 8]) ∧
    (∃ s, listed.system.Reachable s ∧ s.returned = some (oneLayer [1] [7, 8]) ∧
      AList.lookup [7, 8] s.cache.blobs = some []) ∧
    (∃ s, listed.system.Reachable s ∧ s.returned = some (oneLayer [2] [7, 8]) ∧
      s.cache.manifest (oneLayer [2] [7, 8]).name = some [1]) ∧
    (∃ s, listed.system.Reachable s ∧ s.returned = some (oneLayer [1] []) ∧
      AList.lookup [] s.cache.blobs = none) ∧
    ¬ ∀ s m, listed.system.Reachable s → s.returned = some m → listed.Complete s.cache m := by
  have hhole : ∃ s, listed.system.Reachable s ∧ s.returned = some (oneLayer [1] [7, 8]) ∧
      AList.lookup [7, 8] s.cache.blobs = some [0, 8] :=
    exists_listed
      [.pull (oneLayer [1] [7, 8]), .get, .chunked true, .chunksum, .chunksum, .endStream,
        .receive 1 1, .fail 0 0, .finish 0 .ok, .wait .ok .ok,
        .pull (oneLayer [1] [7, 8]), .get, .wait .ok .ok]
      (fun s => s.returned = some (oneLayer [1] [7, 8]) ∧
        AList.lookup [7, 8] s.cache.blobs = some [0, 8]) (by decide)
  refine ⟨hhole, ?_, ?_, ?_, ?_⟩
  · exact exists_listed
      (download (oneLayer [1] [7, 8]) ++ [.delete [7, 8], .pull (oneLayer [1] [7, 8]), .get,
        .chunked true, .chunksum, .chunksum, .endStream, .wait .ok .ok])
      (fun s => s.returned = some (oneLayer [1] [7, 8]) ∧
        AList.lookup [7, 8] s.cache.blobs = some []) (by decide)
  · exact exists_listed
      (download (oneLayer [1] [7, 8]) ++ [.pull (oneLayer [2] [7, 8]), .get, .wait .ok .ok])
      (fun s => s.returned = some (oneLayer [2] [7, 8]) ∧
        s.cache.manifest (oneLayer [2] [7, 8]).name = some [1]) (by decide)
  · exact exists_listed [.pull (oneLayer [1] []), .get, .chunked false, .wait .ok .ok]
      (fun s => s.returned = some (oneLayer [1] []) ∧
        AList.lookup [] s.cache.blobs = none) (by decide)
  · intro hall
    obtain ⟨s, hs, hreturned, hfile⟩ := hhole
    obtain ⟨f, hf, -, hsum⟩ := (hall s _ hs hreturned).1 ⟨[7, 8], 2⟩ (by decide)
    rw [hfile] at hf
    obtain rfl := Option.some.inj hf
    revert hsum
    decide

end Registry

end Prismalama.Ollama
