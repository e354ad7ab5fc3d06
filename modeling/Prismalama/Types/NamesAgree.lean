import Prismalama.Types.RoundTrip

/-!
# The two parsers of model names

`names.Parse` (`server/internal/internal/names/name.go`) takes a host, a namespace or a tag that
is empty for one that is missing, and the default stands in for it; for `ParseNameBare`
(`types/model/name.go`) the separator beside it promises a part, and the name is not valid. On a
string without such parts they agree.
-/

namespace Prismalama.Types

open Prismalama.Lib Prismalama.Ollama

/-- A part is valid, or may be left out. -/
def Optional (kind : Server.Images.PartKind) (s : GoString) : Prop :=
  s = [] ∨ Server.Images.isValidPart kind s = true

/-- The parts of a spelling are valid or empty. -/
structure PartsValid (sp : Spelling) : Prop where
  host : Optional .kindHost (sp.h.getD [])
  namespace_ : Optional .kindNamespace (sp.n.getD [])
  model : Server.Images.isValidPart .kindModel sp.m = true
  tag : Optional .kindTag (sp.t.getD [])

/-! ## `names.IsFullyQualified` -/

/-- The parts of the one package as those of the other. -/
def partKind : Part → Server.Images.PartKind
  | .partHost => .kindHost
  | .partNamespace => .kindNamespace
  | .partModel => .kindModel
  | .partTag => .kindTag

theorem isValidPart_iff (kind : Part) {s : GoString} (hne : s ≠ []) :
    Ollama.Name.isValidPart kind s = true ↔ Server.Images.isValidPart (partKind kind) s = true := by
  cases s with
  | nil => exact absurd rfl hne
  | cons b rest =>
    have hlen : Server.Images.isValidLen (partKind kind) (b :: rest) =
        decide ((b :: rest).length ≤ Ollama.Name.maxlen kind) := by
      rw [Server.Images.isValidLen, decide_eq_true (by simp : 1 ≤ (b :: rest).length),
        Bool.true_and]
      cases kind <;> rfl
    have hbyte : Server.Images.isValidByte (partKind kind) = Ollama.Name.isValidByte kind := by
      cases kind <;> rfl
    rw [Server.Images.isValidPart, hlen]
    rw [hbyte]
    rfl

/-- A name with all its parts. -/
theorem names_isFullyQualified_iff (n : Ollama.Name) : n.isFullyQualified = true ↔
    Name.Valid ⟨n.h, n.n, n.m, n.t, []⟩ := by
  have hpart : ∀ (kind : Part) (s : GoString),
      Server.Images.isValidPart (partKind kind) s = true ↔
        s ≠ [] ∧ (s = [] ∨ Ollama.Name.isValidPart kind s = true) := by
    intro kind s
    constructor
    · intro h
      exact ⟨ne_nil_of_valid h, .inr ((isValidPart_iff kind (ne_nil_of_valid h)).mpr h)⟩
    · rintro ⟨hne, h⟩
      exact (isValidPart_iff kind hne).mp (h.resolve_left hne)
  simp only [Ollama.Name.isFullyQualified, Ollama.Name.isValid, Bool.and_eq_true, Bool.or_eq_true,
    decide_eq_true_eq]
  constructor
  · rintro ⟨⟨⟨⟨⟨⟨⟨hh, hn⟩, ht⟩, hmne, hm⟩, hhne⟩, hnne⟩, -⟩, htne⟩
    exact ⟨(hpart .partHost _).mpr ⟨hhne, hh⟩, (hpart .partNamespace _).mpr ⟨hnne, hn⟩,
      (hpart .partModel _).mpr ⟨hmne, .inr hm⟩, (hpart .partTag _).mpr ⟨htne, ht⟩⟩
  · rintro ⟨hh, hn, hm, ht⟩
    obtain ⟨hhne, hh⟩ := (hpart .partHost _).mp hh
    obtain ⟨hnne, hn⟩ := (hpart .partNamespace _).mp hn
    obtain ⟨hmne, hm⟩ := (hpart .partModel _).mp hm
    obtain ⟨htne, ht⟩ := (hpart .partTag _).mp ht
    exact ⟨⟨⟨⟨⟨⟨⟨hh, hn⟩, ht⟩, hmne, hm.resolve_left hmne⟩, hhne⟩, hnne⟩, hmne⟩, htne⟩

/-! ## Defaults -/

theorem valid_cmpOr {kind : Server.Images.PartKind} {default : GoString}
    (hdefault : Server.Images.isValidPart kind default = true) (s : GoString) :
    Server.Images.isValidPart kind (Ollama.Name.cmpOr s default) = true ↔ Optional kind s := by
  unfold Ollama.Name.cmpOr Optional
  split
  · next hs => simp [hs, hdefault]
  · next hs => simp [hs]

/-- A promised part is not left out. -/
theorem valid_promised {kind : Server.Images.PartKind} {default : GoString}
    (hdefault : Server.Images.isValidPart kind default = true) (o : Option GoString) :
    Server.Images.isValidPart kind (Ollama.Name.cmpOr (promised o) default) = true ↔
      Optional kind (o.getD []) ∧ o ≠ some [] := by
  rw [valid_cmpOr hdefault]
  cases o with
  | none => simp [promised, Optional]
  | some p =>
    by_cases hp : p = []
    · subst hp
      have hmissing : ∀ kind, ¬Optional kind (promised (some [])) := by
        intro kind
        unfold Optional
        cases kind <;> decide
      simp [hmissing kind]
    · rw [promised, cmpOr_of_ne hp]
      simp [hp]

theorem names_defaultMask : Ollama.Name.defaultMask =
    ⟨defaultHost, defaultNamespace, lit "_", defaultTag⟩ := by decide

theorem valid_defaults : Server.Images.isValidPart .kindHost defaultHost = true ∧
    Server.Images.isValidPart .kindNamespace defaultNamespace = true ∧
    Server.Images.isValidPart .kindTag defaultTag = true := by decide

/-! ## What the parsers accept -/

/-- `names`: the model is valid, and of the other parts those that are not empty. -/
theorem names_accepts (sp : Spelling) :
    (sp.name.merge Ollama.Name.defaultMask).isFullyQualified = true ↔ PartsValid sp := by
  obtain ⟨hh, hn, ht⟩ := valid_defaults
  rw [names_isFullyQualified_iff, names_defaultMask]
  constructor
  · intro h
    exact ⟨(valid_cmpOr hh _).mp h.host, (valid_cmpOr hn _).mp h.namespace_, h.model,
      (valid_cmpOr ht _).mp h.tag⟩
  · intro h
    exact ⟨(valid_cmpOr hh _).mpr h.host, (valid_cmpOr hn _).mpr h.namespace_, h.model,
      (valid_cmpOr ht _).mpr h.tag⟩

theorem valid_promisedModel (sp : Spelling) :
    Server.Images.isValidPart .kindModel (Name.promisedModel sp) = true ↔
      Server.Images.isValidPart .kindModel sp.m = true := by
  unfold Name.promisedModel
  split
  · by_cases hm : sp.m = []
    · rw [hm]
      decide
    · rw [cmpOr_of_ne hm]
  · rfl

/-- `model`: no part is empty, too. -/
theorem model_accepts {sp : Spelling} (hcut : sp.Cut) (hmore : sp.more = [])
    (hscheme : ∀ h ∈ sp.h, contains h (lit "://") = false) :
    (Name.parseName sp.text).isFullyQualified = true ↔ PartsValid sp ∧ sp.Tidy := by
  obtain ⟨hh, hn, ht⟩ := valid_defaults
  rw [Name.isFullyQualified_iff, Name.parseName, Name.parseNameBare_text hcut hmore hscheme]
  constructor
  · rintro ⟨hhost, hspace, hmodel, htag⟩
    obtain ⟨hhost, hhne⟩ := (valid_promised hh sp.h).mp hhost
    obtain ⟨hspace, hnne⟩ := (valid_promised hn sp.n).mp hspace
    obtain ⟨htag, htne⟩ := (valid_promised ht sp.t).mp htag
    exact ⟨⟨hhost, hspace, (valid_promisedModel sp).mp hmodel, htag⟩, hhne, hnne, htne, hmore⟩
  · rintro ⟨hvalid, htidy⟩
    exact ⟨(valid_promised hh sp.h).mpr ⟨hvalid.host, htidy.host⟩,
      (valid_promised hn sp.n).mpr ⟨hvalid.namespace_, htidy.namespace_⟩,
      (valid_promisedModel sp).mpr hvalid.model,
      (valid_promised ht sp.t).mpr ⟨hvalid.tag, htidy.tag⟩⟩

theorem promised_of_ne {o : Option GoString} (h : o ≠ some []) : promised o = o.getD [] := by
  cases o with
  | none => rfl
  | some p => exact cmpOr_of_ne fun heq => h (heq ▸ rfl)

/-- Both accept the string: the parts are the same. -/
theorem same_parts {sp : Spelling} (hcut : sp.Cut) (hvalid : PartsValid sp) (htidy : sp.Tidy)
    (hscheme : ∀ h ∈ sp.h, contains h (lit "://") = false) :
    (Name.parseName sp.text).host = (sp.name.merge Ollama.Name.defaultMask).h ∧
      (Name.parseName sp.text).namespace_ = (sp.name.merge Ollama.Name.defaultMask).n ∧
      (Name.parseName sp.text).model = (sp.name.merge Ollama.Name.defaultMask).m ∧
      (Name.parseName sp.text).tag = (sp.name.merge Ollama.Name.defaultMask).t := by
  have hmodel : Name.promisedModel sp = sp.m := by
    unfold Name.promisedModel
    split
    · exact cmpOr_of_ne (ne_nil_of_valid hvalid.model)
    · rfl
  rw [Name.parseName, Name.parseNameBare_text hcut htidy.more hscheme, names_defaultMask, hmodel,
    promised_of_ne htidy.host, promised_of_ne htidy.namespace_, promised_of_ne htidy.tag]
  exact ⟨rfl, rfl, rfl, rfl⟩

/-- The host is at the start of the string. -/
theorem host_contains {sp : Spelling} {sep : GoString} (h : contains sp.text sep = false) :
    ∀ p ∈ sp.h, contains p sep = false := by
  intro p hp
  by_contra hcontains
  have htext : sp.text = p ++ ([0x2F] ++ Spelling.slashed sp.n ++ sp.m ++
      Spelling.coloned sp.t ++ sp.more) := by
    rw [Spelling.text, Spelling.front, Option.mem_def.mp hp]
    simp [Spelling.slashed]
  rw [htext, contains_append _ (Bool.eq_true_of_not_eq_false hcontains)] at h
  cases h

/-- The parsers agree on a string with no empty part beside a separator, and with one colon at
most behind the last slash. -/
theorem parsers_agree {s : GoString} (hscheme : contains s (lit "://") = false)
    (hlen : s.length ≤ Ollama.Name.maxNameLength) :
    (∃ sp : Spelling, sp.Cut ∧ sp.text = s) ∧
    ∀ sp : Spelling, sp.Cut → sp.text = s → sp.more = [] →
      ((Name.parseName s).isFullyQualified = true ↔
        ((Ollama.Name.parse s).merge Ollama.Name.defaultMask).isFullyQualified = true ∧ sp.Tidy) ∧
      ((Name.parseName s).isFullyQualified = true →
        (Name.parseName s).host = ((Ollama.Name.parse s).merge Ollama.Name.defaultMask).h ∧
        (Name.parseName s).namespace_ = ((Ollama.Name.parse s).merge Ollama.Name.defaultMask).n ∧
        (Name.parseName s).model = ((Ollama.Name.parse s).merge Ollama.Name.defaultMask).m ∧
        (Name.parseName s).tag = ((Ollama.Name.parse s).merge Ollama.Name.defaultMask).t) ∧
      (Ollama.Name.parse s).toString = sp.dropEmpty.text ∧
      (sp.Tidy → (Ollama.Name.parse s).toString = s) := by
  refine ⟨Spelling.exists_spelling s, ?_⟩
  rintro sp hcut rfl hmore
  have hhost := host_contains hscheme
  rw [Spelling.parse_text hcut hmore hlen, names_accepts, model_accepts hcut hmore hhost,
    Spelling.toString_name]
  refine ⟨Iff.rfl, fun ⟨hvalid, htidy⟩ => same_parts hcut hvalid htidy hhost, rfl, fun htidy => ?_⟩
  rw [Spelling.dropEmpty_of_tidy htidy]

theorem parsers_agree_port : (∃ sp : Spelling, sp.Cut ∧ sp.text = lit "localhost:80/n/m:t") ∧
    (Name.parseName (lit "localhost:80/n/m:t")).isFullyQualified = true ∧
    ((Ollama.Name.parse (lit "localhost:80/n/m:t")).merge
      Ollama.Name.defaultMask).isFullyQualified = true :=
  ⟨(parsers_agree (by decide) (by decide)).1, by decide,
    by decide⟩

/-- A slash before the model promises a namespace, which `names.Parse` lets default. -/
theorem parsers_differ : contains (lit "/m") (lit "://") = false ∧
    (lit "/m").length ≤ Ollama.Name.maxNameLength ∧
    ((Ollama.Name.parse (lit "/m")).merge Ollama.Name.defaultMask).isFullyQualified = true ∧
    (Name.parseName (lit "/m")).isFullyQualified = false ∧
    (Ollama.Name.parse (lit "/m")).isValid = true ∧
    (Ollama.Name.parse (lit "/m")).toString ≠ lit "/m" := by decide

end Prismalama.Types
