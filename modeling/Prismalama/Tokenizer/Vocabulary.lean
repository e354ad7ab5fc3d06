import Prismalama.Lib.GoInt
import Prismalama.Lib.GoStrings

/-!
# Vocabularies (`tokenizer/vocabulary.go`) and special tokens

`Vocabulary` has one entry for each id: the parallel slices `Values`, `Types`
and `Scores` as one list. An encoder first cuts the text at the occurrences of
the special tokens, one special token after the other; the loop is the same in
both encoders, and the list of fragments grows while it is walked.
-/

namespace Prismalama.Tokenizer

open Prismalama.Lib

/-- The id a map built from `values` has for `s`; -1 for none. A later entry
overwrites an equal one. -/
def idOf (values : List GoString) (s : GoString) : Int :=
  match values.zipIdx.reverse.find? fun p => p.1 == s with
  | some p => i32 p.2
  | none => -1

theorem idOf_of_mem {values : List GoString} (hlen : values.length ≤ 2147483648) {s : GoString}
    (h : s ∈ values) : ∃ i : Nat, idOf values s = i ∧ values[i]? = some s := by
  obtain ⟨j, hj⟩ := List.mem_iff_getElem?.mp h
  cases hfind : values.zipIdx.reverse.find? fun p => p.1 == s with
  | none =>
    have hnone := List.find?_eq_none.mp hfind (s, j)
      (List.mem_reverse.mpr (List.mem_zipIdx_iff_getElem?.mpr hj))
    exact absurd (beq_self_eq_true s) hnone
  | some p =>
    have hp : p.1 = s := by simpa using List.find?_some hfind
    have hi := List.mem_zipIdx_iff_getElem?.mp (List.mem_reverse.mp (List.mem_of_find?_eq_some hfind))
    have hlt : p.2 < values.length := (List.getElem?_eq_some_iff.mp hi).1
    refine ⟨p.2, ?_, by rw [hi, hp]⟩
    unfold idOf
    rw [hfind]
    exact i32_eq (by omega) (by unfold maxInt32; omega)

theorem mem_of_idOf_nonneg {values : List GoString} {s : GoString} (h : 0 ≤ idOf values s) :
    s ∈ values := by
  unfold idOf at h
  split at h
  · rename_i p hfind
    have hp : p.1 = s := by simpa using List.find?_some hfind
    have hi := List.mem_zipIdx_iff_getElem?.mp (List.mem_reverse.mp (List.mem_of_find?_eq_some hfind))
    rw [← hp]
    exact List.mem_of_getElem? hi
  · omega

/-! ## Vocabularies -/

def tokenTypeControl : Int := 3

def tokenTypeUserDefined : Int := 4

structure Token (σ : Type*) where
  value : GoString
  type : Int
  score : σ

structure Vocabulary (σ : Type*) where
  tokens : List (Token σ)
  merges : List GoString
  bos : List Int
  eos : List Int
  addBOS : Bool
  addEOS : Bool
  /-- Ids are `int32`. -/
  length_le : tokens.length ≤ 2147483648

namespace Vocabulary

variable {σ : Type*}

def values (v : Vocabulary σ) : List GoString := v.tokens.map Token.value

/-- `Encode` -/
def encode (v : Vocabulary σ) (s : GoString) : Int := idOf v.values s

/-- `Decode`; `none` when the index is out of range. -/
def decode (v : Vocabulary σ) (id : Int) : Option GoString :=
  if id < 0 then none else v.values[id.toNat]?

/-- `SpecialVocabulary` -/
def specialVocabulary (v : Vocabulary σ) : List GoString :=
  (v.tokens.filter fun t => t.type == tokenTypeControl || t.type == tokenTypeUserDefined).map
    Token.value

/-- `Merge` -/
def merge (v : Vocabulary σ) (left right : GoString) : Int :=
  idOf v.merges (left ++ encodeRunes [' '] ++ right)

/-- `addSpecials` -/
def addSpecials (v : Vocabulary σ) (ids : List Int) : List Int :=
  let ids := if v.addBOS then v.bos.take 1 ++ ids else ids
  if v.addEOS then ids ++ v.eos.take 1 else ids

theorem encode_nonneg {v : Vocabulary σ} {s : GoString} : 0 ≤ v.encode s ↔ s ∈ v.values := by
  constructor
  · exact mem_of_idOf_nonneg
  · intro h
    have hlen : v.values.length ≤ 2147483648 := by
      simpa [values] using v.length_le
    obtain ⟨i, hi, -⟩ := idOf_of_mem hlen h
    rw [encode, hi]
    exact Int.natCast_nonneg i

/-- Decoding undoes encoding. -/
theorem decode_encode {v : Vocabulary σ} {s : GoString} (h : s ∈ v.values) :
    v.decode (v.encode s) = some s := by
  have hlen : v.values.length ≤ 2147483648 := by
    simpa [values] using v.length_le
  obtain ⟨i, hi, hs⟩ := idOf_of_mem hlen h
  rw [encode, hi, decode, if_neg (by omega), Int.toNat_natCast, hs]

theorem mem_values_of_special {v : Vocabulary σ} {s : GoString} (h : s ∈ v.specialVocabulary) :
    s ∈ v.values := by
  obtain ⟨t, ht, rfl⟩ := List.mem_map.mp h
  exact List.mem_map_of_mem (List.mem_filter.mp ht).1

end Vocabulary

/-! ## Fragments -/

structure Fragment where
  value : GoString
  ids : List Int

/-- `middle`: what a text fragment becomes. -/
def Fragment.cut (frag : Fragment) (special : GoString) (id : Int) : List Fragment :=
  match index frag.value special with
  | none => [frag]
  | some i =>
    let rest := frag.value.drop (i + special.length)
    (if 0 < i then [⟨frag.value.take i, []⟩] else []) ++ ⟨special, [id]⟩ ::
      (if rest ≠ [] then [⟨rest, []⟩] else [])

/-- The loop over the fragments for one special token; `none` when it goes on
after `fuel` rounds. -/
def cutAll (special : GoString) (id : Int) : Nat → List Fragment → Option (List Fragment)
  | _, [] => some []
  | 0, _ :: _ => none
  | fuel + 1, frag :: frags =>
    if frag.ids ≠ [] then (cutAll special id fuel frags).map (frag :: ·)
    else
      match frag.cut special id ++ frags with
      | [] => some []
      | next :: frags => (cutAll special id fuel frags).map (next :: ·)

/-- More rounds than the loop takes for a non-empty special token. -/
def rounds (frags : List Fragment) : Nat := (frags.map fun f => 2 * f.value.length + 1).sum

/-- The fragments of a text; `none` when a loop does not end. -/
def fragments {σ : Type*} (v : Vocabulary σ) (s : GoString) : Option (List Fragment) :=
  v.specialVocabulary.foldlM
    (fun frags special => cutAll special (v.encode special) (rounds frags) frags) [⟨s, []⟩]

/-- What the values of some fragments spell. -/
def spelled (frags : List Fragment) : GoString := (frags.map Fragment.value).flatten

/-- A text fragment is valid, and any other is a special token. -/
def Fragment.Ok {σ : Type*} (v : Vocabulary σ) (f : Fragment) : Prop :=
  (f.ids = [] ∧ ValidUtf8 f.value) ∨
    (f.value ∈ v.specialVocabulary ∧ f.ids = [v.encode f.value])

variable {σ : Type*} {v : Vocabulary σ} {special : GoString} {frag : Fragment}

theorem spelled_cut (frag : Fragment) (special : GoString) (id : Int) :
    spelled (frag.cut special id) = frag.value := by
  unfold Fragment.cut
  cases hi : index frag.value special with
  | none => simp [spelled]
  | some i =>
    have hval := eq_append_of_index hi
    have htake : (if 0 < i then [Fragment.mk (frag.value.take i) []] else []).flatMap
        Fragment.value = frag.value.take i := by
      cases i <;> simp
    have hdrop : (if frag.value.drop (i + special.length) ≠ [] then
        [Fragment.mk (frag.value.drop (i + special.length)) []] else []).flatMap
        Fragment.value = frag.value.drop (i + special.length) := by
      split
      · simp
      · rename_i hnil
        exact (not_not.mp hnil).symm
    unfold spelled
    rw [← List.flatMap_def, List.flatMap_append, List.flatMap_cons, htake, hdrop,
      ← List.append_assoc]
    exact hval.symm

theorem ok_of_mem_cut (hspecial : special ∈ v.specialVocabulary) (hvalid : ValidUtf8 special)
    (hne : special ≠ []) (hfrag : ValidUtf8 frag.value) (hids : frag.ids = []) {f : Fragment}
    (hf : f ∈ frag.cut special (v.encode special)) : f.Ok v := by
  unfold Fragment.cut at hf
  cases hi : index frag.value special with
  | none =>
    rw [hi] at hf
    cases List.mem_singleton.mp hf
    exact .inl ⟨hids, hfrag⟩
  | some i =>
    rw [hi] at hf
    have hval := eq_append_of_index hi
    rw [hval] at hfrag
    obtain ⟨hleft, hright⟩ := hfrag.of_middle hvalid hne
    rcases List.mem_append.mp hf with hl | hr
    · split at hl
      · cases List.mem_singleton.mp hl
        exact .inl ⟨rfl, hleft⟩
      · cases hl
    · rcases List.mem_cons.mp hr with rfl | hr
      · exact .inr ⟨hspecial, rfl⟩
      · split at hr
        · cases List.mem_singleton.mp hr
          exact .inl ⟨rfl, hright⟩
        · cases hr

/-- A round of the loop leaves less to do. -/
theorem cut_rounds (hne : special ≠ []) (frag : Fragment) (id : Int) :
    ∃ f rest, frag.cut special id = f :: rest ∧ rounds rest < 2 * frag.value.length + 1 := by
  have hpos := List.length_pos_iff.mpr hne
  unfold Fragment.cut
  cases hi : index frag.value special with
  | none => exact ⟨frag, [], rfl, by simp [rounds]⟩
  | some i =>
    have hle := index_le hi
    have hrest : rounds (if frag.value.drop (i + special.length) ≠ [] then
        [Fragment.mk (frag.value.drop (i + special.length)) []] else []) ≤
        2 * (frag.value.length - (i + special.length)) + 1 := by
      split <;> simp [rounds]
    cases i with
    | zero =>
      refine ⟨_, _, rfl, lt_of_le_of_lt hrest ?_⟩
      omega
    | succ i =>
      refine ⟨_, _, rfl, ?_⟩
      show 2 * special.length + 1 + rounds _ < _
      refine lt_of_le_of_lt (Nat.add_le_add_left hrest _) ?_
      omega

theorem rounds_cons (f : Fragment) (frags : List Fragment) :
    rounds (f :: frags) = 2 * f.value.length + 1 + rounds frags := rfl

theorem rounds_append (fs frags : List Fragment) :
    rounds (fs ++ frags) = rounds fs + rounds frags := by
  simp [rounds]

/-- The loop ends; the fragments spell the same text and are of the two kinds. -/
theorem cutAll_spec (hspecial : special ∈ v.specialVocabulary) (hvalid : ValidUtf8 special)
    (hne : special ≠ []) :
    ∀ (fuel : Nat) (frags : List Fragment), rounds frags ≤ fuel → (∀ f ∈ frags, f.Ok v) →
      ∃ frags', cutAll special (v.encode special) fuel frags = some frags' ∧
        spelled frags' = spelled frags ∧ ∀ f ∈ frags', f.Ok v := by
  intro fuel
  induction fuel with
  | zero =>
    intro frags hfuel hok
    cases frags with
    | nil => exact ⟨[], rfl, rfl, hok⟩
    | cons f frags =>
      rw [rounds_cons] at hfuel
      omega
  | succ fuel ih =>
    intro frags hfuel hok
    cases frags with
    | nil => exact ⟨[], rfl, rfl, hok⟩
    | cons frag frags =>
      rw [rounds_cons] at hfuel
      have hfrag := hok frag List.mem_cons_self
      have hfrags : ∀ f ∈ frags, f.Ok v := fun f hf => hok f (List.mem_cons_of_mem frag hf)
      unfold cutAll
      by_cases hids : frag.ids = []
      · have hval : ValidUtf8 frag.value := by
          rcases hfrag with ⟨-, hval⟩ | ⟨-, hcons⟩
          · exact hval
          · rw [hids] at hcons
            cases hcons
        obtain ⟨f, rest, hcut, hless⟩ := cut_rounds hne frag (v.encode special)
        have hmem : ∀ g ∈ f :: rest, g.Ok v := fun g hg =>
          ok_of_mem_cut hspecial hvalid hne hval hids (hcut ▸ hg)
        have hspell := spelled_cut frag special (v.encode special)
        rw [hcut] at hspell
        obtain ⟨out, hout, hspelled, hoks⟩ := ih (rest ++ frags)
          (by rw [rounds_append]; omega) fun g hg => by
            rcases List.mem_append.mp hg with hg | hg
            · exact hmem g (List.mem_cons_of_mem f hg)
            · exact hfrags g hg
        rw [if_neg (not_not.mpr hids), hcut]
        refine ⟨f :: out, by rw [List.cons_append]; simp only [hout, Option.map_some], ?_, ?_⟩
        · show f.value ++ spelled out = frag.value ++ spelled frags
          rw [hspelled, ← hspell]
          simp [spelled]
        · intro g hg
          rcases List.mem_cons.mp hg with rfl | hg
          · exact hmem g List.mem_cons_self
          · exact hoks g hg
      · obtain ⟨out, hout, hspelled, hoks⟩ := ih frags (by omega) hfrags
        rw [if_pos hids, hout]
        refine ⟨frag :: out, rfl, ?_, ?_⟩
        · show frag.value ++ spelled out = frag.value ++ spelled frags
          rw [hspelled]
        · intro g hg
          rcases List.mem_cons.mp hg with rfl | hg
          · exact hfrag
          · exact hoks g hg

/-- The fragments of a valid text, when the special tokens are valid and not empty. -/
theorem fragments_spec {s : GoString} (hs : ValidUtf8 s)
    (hspecial : ∀ special ∈ v.specialVocabulary, special ≠ [] ∧ ValidUtf8 special) :
    ∃ frags, fragments v s = some frags ∧ spelled frags = s ∧ ∀ f ∈ frags, f.Ok v := by
  have hloop : ∀ (specials : List GoString), (∀ sp ∈ specials, sp ∈ v.specialVocabulary) →
      ∀ frags : List Fragment, (∀ f ∈ frags, f.Ok v) →
        ∃ frags', specials.foldlM
            (fun frags sp => cutAll sp (v.encode sp) (rounds frags) frags) frags = some frags' ∧
          spelled frags' = spelled frags ∧ ∀ f ∈ frags', f.Ok v := by
    intro specials
    induction specials with
    | nil => exact fun _ frags hok => ⟨frags, rfl, rfl, hok⟩
    | cons sp specials ih =>
      intro hmem frags hok
      have hsp := hmem sp List.mem_cons_self
      obtain ⟨mid, hmid, hspelled, hoks⟩ :=
        cutAll_spec hsp (hspecial sp hsp).2 (hspecial sp hsp).1 (rounds frags) frags (le_refl _) hok
      obtain ⟨out, hout, hspelled', hoks'⟩ :=
        ih (fun sp' hsp' => hmem sp' (List.mem_cons_of_mem sp hsp')) mid hoks
      exact ⟨out, by rw [List.foldlM_cons, hmid]; exact hout, hspelled'.trans hspelled, hoks'⟩
  obtain ⟨frags, hfrags, hspelled, hoks⟩ := hloop v.specialVocabulary (fun _ h => h) [⟨s, []⟩]
    fun f hf => by
      cases List.mem_singleton.mp hf
      exact .inl ⟨rfl, hs⟩
  refine ⟨frags, hfrags, hspelled.trans ?_, hoks⟩
  simp [spelled]

end Prismalama.Tokenizer
