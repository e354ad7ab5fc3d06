import Mathlib.Tactic

/-!
# Writes at offsets

Several writers put bytes at offsets of named destinations. What a destination
holds in the end depends on the order of the writes only where two of them put
different bytes at one position (`memory_eq_some`).
-/

namespace Prismalama.Lib

/-! ## Interleavings -/

/-- The lists run as threads, and `ws` is what they do in the order it happens. -/
inductive Interleaving {α : Type*} : List (List α) → List α → Prop
  | done {threads} : (∀ t ∈ threads, t = []) → Interleaving threads []
  | step {threads i a rest ws} : threads[i]? = some (a :: rest) →
      Interleaving (threads.set i rest) ws → Interleaving threads (a :: ws)

namespace Interleaving

variable {α : Type*} {threads : List (List α)}

theorem mem_iff {ws : List α} (h : Interleaving threads ws) {a : α} :
    a ∈ ws ↔ ∃ t ∈ threads, a ∈ t := by
  induction h with
  | done hnil =>
    refine ⟨fun ha => absurd ha List.not_mem_nil, ?_⟩
    rintro ⟨t, ht, ha⟩
    rw [hnil t ht] at ha
    exact absurd ha List.not_mem_nil
  | @step threads i b rest ws hi _ ih =>
    have hlt := (List.getElem?_eq_some_iff.mp hi).1
    rw [List.mem_cons, ih]
    constructor
    · rintro (rfl | ⟨t, ht, ha⟩)
      · exact ⟨_, List.mem_of_getElem? hi, List.mem_cons_self⟩
      · rcases List.mem_or_eq_of_mem_set ht with ht | rfl
        · exact ⟨t, ht, ha⟩
        · exact ⟨_, List.mem_of_getElem? hi, List.mem_cons_of_mem _ ha⟩
    · rintro ⟨t, ht, ha⟩
      obtain ⟨j, hj⟩ := List.mem_iff_getElem?.mp ht
      by_cases hij : i = j
      · subst hij
        rw [hi] at hj
        obtain rfl := Option.some.inj hj
        rcases List.mem_cons.mp ha with rfl | ha
        · exact .inl rfl
        · exact .inr ⟨rest, List.mem_set hlt rest, ha⟩
      · refine .inr ⟨t, List.mem_iff_getElem?.mpr ⟨j, ?_⟩, ha⟩
        rw [List.getElem?_set_ne hij]
        exact hj

/-- One thread runs to its end first. -/
theorem run_thread {i : Nat} {t ws : List α} (hi : threads[i]? = some t)
    (h : Interleaving (threads.set i []) ws) : Interleaving threads (t ++ ws) := by
  induction t generalizing threads with
  | nil =>
    have hsame : threads.set i [] = threads := by
      refine List.ext_getElem? fun j => ?_
      by_cases hij : i = j
      · subst hij
        rw [List.getElem?_set_self (List.getElem?_eq_some_iff.mp hi).1, hi]
      · rw [List.getElem?_set_ne hij]
    rwa [hsame] at h
  | cons a t ih =>
    have hlt := (List.getElem?_eq_some_iff.mp hi).1
    refine .step hi (ih (List.getElem?_set_self hlt) ?_)
    rwa [List.set_set]

/-- The threads may run one after the other, in any order. -/
theorem of_order {order : List Nat} (hnodup : order.Nodup)
    (hall : ∀ i t, threads[i]? = some t → t ≠ [] → i ∈ order) :
    Interleaving threads (order.flatMap fun i => threads.getD i []) := by
  induction order generalizing threads with
  | nil =>
    refine .done fun t ht => ?_
    obtain ⟨i, hi⟩ := List.mem_iff_getElem?.mp ht
    by_contra hne
    exact List.not_mem_nil (hall i t hi hne)
  | cons i order ih =>
    obtain ⟨hi, hnodup⟩ := List.nodup_cons.mp hnodup
    have hothers : ∀ j, i ≠ j → (threads.set i [])[j]? = threads[j]? :=
      fun j hij => List.getElem?_set_ne hij
    have hrest : (order.flatMap fun j => (threads.set i []).getD j []) =
        order.flatMap fun j => threads.getD j [] := by
      refine List.flatMap_congr fun j hj => ?_
      rw [List.getD_eq_getElem?_getD, List.getD_eq_getElem?_getD,
        hothers j fun heq => hi (heq ▸ hj)]
    have hrun : Interleaving (threads.set i []) _ := ih hnodup fun j t hj hne => by
      by_cases hij : i = j
      · subst hij
        obtain ⟨hlt, heq⟩ := List.getElem?_eq_some_iff.mp hj
        rw [List.getElem_set_self] at heq
        exact absurd heq.symm hne
      · rw [hothers j hij] at hj
        exact (List.mem_cons.mp (hall j t hj hne)).resolve_left (Ne.symm hij)
    rw [List.flatMap_cons, ← hrest]
    cases ht : threads[i]? with
    | none =>
      rw [List.getD_eq_getElem?_getD, ht]
      rwa [List.set_eq_of_length_le (List.getElem?_eq_none_iff.mp ht)] at hrun ⊢
    | some t =>
      rw [List.getD_eq_getElem?_getD, ht]
      exact run_thread ht hrun

end Interleaving

/-! ## Memory -/

structure Write (κ : Type*) where
  dest : κ
  offset : Nat
  bytes : List UInt8
deriving DecidableEq

variable {κ : Type*} [DecidableEq κ]

/-- The byte a write puts at a position. -/
def Write.at? (w : Write κ) (dest : κ) (k : Nat) : Option UInt8 :=
  if w.dest = dest ∧ w.offset ≤ k then w.bytes[k - w.offset]? else none

/-- What the destinations hold; `none` where nothing was written. -/
def memory (ws : List (Write κ)) : κ → Nat → Option UInt8 :=
  ws.foldl (fun mem w dest k => (w.at? dest k).or (mem dest k)) fun _ _ => none

theorem memory_append_singleton (ws : List (Write κ)) (w : Write κ) (dest : κ) (k : Nat) :
    memory (ws ++ [w]) dest k = (w.at? dest k).or (memory ws dest k) := by
  rw [memory, List.foldl_append]
  rfl

/-- What is held was written. -/
theorem exists_of_memory {ws : List (Write κ)} {dest : κ} {k : Nat} {b : UInt8}
    (h : memory ws dest k = some b) : ∃ w ∈ ws, w.at? dest k = some b := by
  induction ws using List.reverseRecOn with
  | nil => cases h
  | append_singleton ws w ih =>
    rw [memory_append_singleton] at h
    cases hw : w.at? dest k with
    | some b' =>
      rw [hw] at h
      exact ⟨w, List.mem_append_right _ (List.mem_singleton_self w), hw.trans h⟩
    | none =>
      rw [hw] at h
      obtain ⟨w', hmem, hw'⟩ := ih h
      exact ⟨w', List.mem_append_left _ hmem, hw'⟩

/-- What was written last is held. -/
theorem memory_append_of_some {ws ws' : List (Write κ)} {dest : κ} {k : Nat} {b : UInt8}
    (h : memory ws' dest k = some b) : memory (ws ++ ws') dest k = some b := by
  induction ws' using List.reverseRecOn with
  | nil => cases h
  | append_singleton ws' w ih =>
    rw [memory_append_singleton] at h
    rw [← List.append_assoc, memory_append_singleton]
    cases hw : w.at? dest k with
    | some b' =>
      rw [hw] at h
      exact h
    | none =>
      rw [hw] at h
      exact ih h

/-- What was written is held, if only the byte of a later write. -/
theorem memory_isSome {ws : List (Write κ)} {dest : κ} {k : Nat} {b : UInt8} {w : Write κ}
    (hw : w ∈ ws) (hb : w.at? dest k = some b) : (memory ws dest k).isSome = true := by
  induction ws using List.reverseRecOn with
  | nil => exact absurd hw List.not_mem_nil
  | append_singleton ws w' ih =>
    rw [memory_append_singleton, Option.isSome_or]
    rcases List.mem_append.mp hw with hw | hw
    · rw [ih hw, Bool.or_true]
    · rw [← List.mem_singleton.mp hw, hb]
      rfl

/-- A position that all its writers give the same byte. -/
theorem memory_eq_some {ws : List (Write κ)} {dest : κ} {k : Nat} {b : UInt8}
    (h : ∃ w ∈ ws, w.at? dest k = some b)
    (huniq : ∀ w ∈ ws, ∀ b', w.at? dest k = some b' → b' = b) : memory ws dest k = some b := by
  obtain ⟨w, hw, hb⟩ := h
  obtain ⟨b', hb'⟩ := Option.isSome_iff_exists.mp (memory_isSome hw hb)
  obtain ⟨w', hw', hat⟩ := exists_of_memory hb'
  rw [hb', huniq w' hw' b' hat]

/-! ## Pieces -/

/-- The writes of a writer that puts one piece behind the other. -/
def pieceWrites (dest : κ) : Nat → List (List UInt8) → List (Write κ)
  | _, [] => []
  | offset, p :: ps => ⟨dest, offset, p⟩ :: pieceWrites dest (offset + p.length) ps

omit [DecidableEq κ] in
theorem pieceWrites_bounds {dest : κ} {offset : Nat} {ps : List (List UInt8)} {w : Write κ}
    (hw : w ∈ pieceWrites dest offset ps) :
    offset ≤ w.offset ∧ w.offset + w.bytes.length ≤ offset + ps.flatten.length := by
  induction ps generalizing offset with
  | nil => cases hw
  | cons p ps ih =>
    rw [List.flatten_cons, List.length_append]
    rcases List.mem_cons.mp hw with rfl | hw
    · exact ⟨le_rfl, by simp only; omega⟩
    · have hbounds := ih hw
      omega

omit [DecidableEq κ] in
/-- The last piece with bytes ends where all of them end. -/
theorem exists_last_piece {dest : κ} {offset : Nat} {ps : List (List UInt8)}
    (h : ps.flatten ≠ []) : ∃ w ∈ pieceWrites dest offset ps,
      w.bytes ≠ [] ∧ w.offset + w.bytes.length = offset + ps.flatten.length := by
  induction ps generalizing offset with
  | nil => exact absurd rfl h
  | cons p ps ih =>
    rw [List.flatten_cons, List.length_append]
    by_cases hrest : ps.flatten = []
    · refine ⟨⟨dest, offset, p⟩, List.mem_cons_self, ?_, ?_⟩
      · rwa [List.flatten_cons, hrest, List.append_nil] at h
      · rw [hrest, List.length_nil, Nat.add_zero]
    · obtain ⟨w, hw, hne, hend⟩ := @ih (offset + p.length) hrest
      exact ⟨w, List.mem_cons_of_mem _ hw, hne, by omega⟩

theorem getElem?_of_pieceWrites {dest : κ} {offset k : Nat} {ps : List (List UInt8)}
    {w : Write κ} {b : UInt8} (hw : w ∈ pieceWrites dest offset ps)
    (hb : w.at? dest k = some b) : offset ≤ k ∧ ps.flatten[k - offset]? = some b := by
  induction ps generalizing offset with
  | nil => cases hw
  | cons p ps ih =>
    rcases List.mem_cons.mp hw with rfl | hw
    · simp only [Write.at?, true_and] at hb
      split at hb
      · rename_i hle
        have hlt := (List.getElem?_eq_some_iff.mp hb).1
        exact ⟨hle, by rw [List.flatten_cons, List.getElem?_append_left hlt, hb]⟩
      · cases hb
    · obtain ⟨hle, hget⟩ := ih hw
      refine ⟨by omega, ?_⟩
      rw [List.flatten_cons, List.getElem?_append_right (by omega), Nat.sub_sub, hget]

theorem exists_pieceWrites {dest : κ} {offset j : Nat} {ps : List (List UInt8)} {b : UInt8}
    (h : ps.flatten[j]? = some b) :
    ∃ w ∈ pieceWrites dest offset ps, w.at? dest (offset + j) = some b := by
  induction ps generalizing offset j with
  | nil => cases h
  | cons p ps ih =>
    rw [List.flatten_cons] at h
    by_cases hlt : j < p.length
    · rw [List.getElem?_append_left hlt] at h
      refine ⟨⟨dest, offset, p⟩, List.mem_cons_self, ?_⟩
      rw [Write.at?, if_pos ⟨rfl, Nat.le_add_right _ _⟩]
      rwa [Nat.add_sub_cancel_left]
    · rw [List.getElem?_append_right (not_lt.mp hlt)] at h
      obtain ⟨w, hw, hb⟩ := @ih (offset + p.length) _ h
      rw [Nat.add_assoc, Nat.add_sub_cancel' (not_lt.mp hlt)] at hb
      exact ⟨w, List.mem_cons_of_mem _ hw, hb⟩

/-! ## Files -/

/-- Where a file ends that was empty before the writes. -/
def fileLength (ws : List (Write Unit)) : Nat :=
  ws.foldr (fun w n => if w.bytes = [] then n else max (w.offset + w.bytes.length) n) 0

/-- The file, with zeros where nothing was written. -/
def fileOf (ws : List (Write Unit)) : List UInt8 :=
  (List.range (fileLength ws)).map fun k => (memory ws () k).getD 0

theorem length_fileOf (ws : List (Write Unit)) : (fileOf ws).length = fileLength ws := by
  rw [fileOf, List.length_map, List.length_range]

theorem le_fileLength {ws : List (Write Unit)} {w : Write Unit} (hw : w ∈ ws)
    (hne : w.bytes ≠ []) : w.offset + w.bytes.length ≤ fileLength ws := by
  induction ws with
  | nil => cases hw
  | cons w' ws ih =>
    rw [fileLength, List.foldr_cons, ← fileLength]
    rcases List.mem_cons.mp hw with rfl | hw
    · rw [if_neg hne]
      exact le_max_left _ _
    · split
      · exact ih hw
      · exact (ih hw).trans (le_max_right _ _)

theorem fileLength_le {ws : List (Write Unit)} {n : Nat}
    (h : ∀ w ∈ ws, w.bytes ≠ [] → w.offset + w.bytes.length ≤ n) : fileLength ws ≤ n := by
  induction ws with
  | nil => exact Nat.zero_le n
  | cons w ws ih =>
    have hrest := ih fun w' hw' => h w' (List.mem_cons_of_mem w hw')
    rw [fileLength, List.foldr_cons, ← fileLength]
    split
    · exact hrest
    · rename_i hne
      exact max_le (h w List.mem_cons_self hne) hrest

/-- What the file has at some place. -/
theorem prefix_drop_fileOf {ws : List (Write Unit)} {offset : Nat} {bs : List UInt8}
    (h : ∀ j b, bs[j]? = some b → memory ws () (offset + j) = some b) :
    bs <+: (fileOf ws).drop offset := by
  refine List.prefix_iff_getElem?.mpr fun j hj => ?_
  have hmem := h j bs[j] (List.getElem?_eq_getElem hj)
  -- the byte was written, so the file reaches as far
  obtain ⟨w, hw, hat⟩ := exists_of_memory hmem
  simp only [Write.at?] at hat
  split at hat
  · rename_i hcond
    obtain ⟨-, hle⟩ := hcond
    have hlt := (List.getElem?_eq_some_iff.mp hat).1
    have hend := le_fileLength hw (List.ne_nil_of_length_pos (by omega))
    rw [List.getElem?_drop, fileOf, List.getElem?_map, List.getElem?_range (by omega),
      Option.map_some, hmem, Option.getD_some]
  · cases hat

end Prismalama.Lib
