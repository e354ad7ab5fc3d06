import Prismalama.Types.Model

/-!
# Printing a name and parsing it again (`types/model/name.go`)

`String` writes all parts of a fully qualified name, `DisplayShortest` only those the defaults do
not give, and `Filepath` makes a directory of each. No part of such a name has a slash, only the
host can have a colon, and none is `.` or `..`.
-/

namespace Prismalama.Types

open Prismalama.Lib Prismalama.Ollama Prismalama.Server.Images

/-! ## Valid parts -/

/-- The bytes a valid part does not have. -/
theorem not_mem_of_valid {kind : PartKind} {s : GoString} {c : UInt8}
    (hfirst : isAlphanumericOrUnderscore c = false) (hbyte : isValidByte kind c = false)
    (h : isValidPart kind s = true) : c ∉ s := by
  intro hmem
  obtain ⟨-, hbytes⟩ := Bool.and_eq_true_iff.mp h
  cases s with
  | nil => cases hmem
  | cons b rest =>
    obtain ⟨hb, hrest⟩ := Bool.and_eq_true_iff.mp hbytes
    rcases List.mem_cons.mp hmem with rfl | hmem
    · rw [hfirst] at hb
      cases hb
    · have hc := List.all_eq_true.mp hrest c hmem
      rw [hbyte] at hc
      cases hc

theorem slash_of_valid {kind : PartKind} {s : GoString} (h : isValidPart kind s = true) :
    0x2F ∉ s := not_mem_of_valid (by decide) (by cases kind <;> decide) h

theorem ne_nil_of_valid {kind : PartKind} {s : GoString} (h : isValidPart kind s = true) :
    s ≠ [] := by
  rintro rfl
  cases h

/-- A valid part does not start with a dot. -/
theorem head_of_valid {kind : PartKind} {s : GoString} (h : isValidPart kind s = true) :
    s.head? ≠ some 0x2E := by
  obtain ⟨-, hbytes⟩ := Bool.and_eq_true_iff.mp h
  cases s with
  | nil => simp
  | cons b rest =>
    obtain ⟨hb, -⟩ := Bool.and_eq_true_iff.mp hbytes
    intro heq
    obtain rfl := Option.some.inj heq
    cases hb

theorem promised_of_valid {kind : PartKind} {s : GoString} (h : isValidPart kind s = true) :
    promised (some s) = s := cmpOr_of_ne (ne_nil_of_valid h)

namespace Name

/-- The parts of a name that is fully qualified. -/
structure Valid (n : Name) : Prop where
  host : isValidPart .kindHost n.host = true
  namespace_ : isValidPart .kindNamespace n.namespace_ = true
  model : isValidPart .kindModel n.model = true
  tag : isValidPart .kindTag n.tag = true

theorem isFullyQualified_iff (n : Name) : n.isFullyQualified = true ↔ n.Valid := by
  unfold isFullyQualified
  simp only [Bool.and_eq_true]
  exact ⟨fun ⟨⟨⟨hh, hn⟩, hm⟩, ht⟩ => ⟨hh, hn, hm, ht⟩, fun h => ⟨⟨⟨h.1, h.2⟩, h.3⟩, h.4⟩⟩

/-! ## `ParseName` of a string -/

/-- A name in which the host, or the host and the namespace, are left out. -/
def spelled (host space : Option GoString) (n : Name) : Spelling :=
  ⟨host, space, n.model, some n.tag, []⟩

theorem cut_spelled {n : Name} (h : n.Valid) {host space : Option GoString}
    (hhost : host.isSome = true → space.isSome = true) (hspace : ∀ p ∈ space, p = n.namespace_) :
    (n.spelled host space).Cut where
  host := hhost
  namespace_ p hp := hspace p hp ▸ slash_of_valid h.namespace_
  model c hc := ⟨fun heq => slash_of_valid h.model (heq ▸ hc),
    fun heq => not_mem_of_valid (by decide) (by decide) h.model (heq ▸ hc)⟩
  tag := by
    rintro t ⟨⟩ c hc
    exact ⟨fun heq => slash_of_valid h.tag (heq ▸ hc),
      fun heq => not_mem_of_valid (by decide) (by decide) h.tag (heq ▸ hc)⟩
  more_tag := fun hne => absurd rfl hne
  more_colon := fun hne => absurd rfl hne
  more_slash := List.not_mem_nil

theorem parseName_spelled {n : Name} (h : n.Valid) {host space : Option GoString}
    (hhost : host.isSome = true → space.isSome = true) (hspace : ∀ p ∈ space, p = n.namespace_)
    (hscheme : ∀ p ∈ host, p = n.host) : parseName (n.spelled host space).text =
      ⟨host.getD defaultHost, space.getD defaultNamespace, n.model, n.tag,
        defaultProtocolScheme⟩ := by
  have hcontains : ∀ p ∈ host, contains p (lit "://") = false := fun p hp =>
    not_contains_of_not_mem (show 0x2F ∈ lit "://" by decide)
      (hscheme p hp ▸ slash_of_valid h.host)
  have hmodel : promisedModel (n.spelled host space) = n.model := by
    rw [promisedModel, if_pos (.inr rfl)]
    exact cmpOr_of_ne (ne_nil_of_valid h.model)
  have htag : Ollama.Name.cmpOr n.tag defaultTag = n.tag := cmpOr_of_ne (ne_nil_of_valid h.tag)
  rw [parseName, parseNameBare_text (cut_spelled h hhost hspace) rfl hcontains, hmodel]
  have hor : ∀ {kind : PartKind} {o : Option GoString} {p default : GoString},
      isValidPart kind p = true → (∀ q ∈ o, q = p) →
      Ollama.Name.cmpOr (promised o) default = o.getD default := by
    intro kind o p default hp ho
    cases o with
    | none => rfl
    | some q =>
      obtain rfl := ho q rfl
      rw [promised_of_valid hp]
      exact cmpOr_of_ne (ne_nil_of_valid hp)
  show (⟨Ollama.Name.cmpOr (promised host) defaultHost,
    Ollama.Name.cmpOr (promised space) defaultNamespace, n.model,
    Ollama.Name.cmpOr (promised (some n.tag)) defaultTag, defaultProtocolScheme⟩ : Name) = _
  rw [hor h.host hscheme, hor h.namespace_ hspace, promised_of_valid h.tag, htag]

theorem toString_spelled {n : Name} (h : n.Valid) :
    n.toString = (n.spelled (some n.host) (some n.namespace_)).text := by
  rw [toString, if_pos (ne_nil_of_valid h.host), if_pos (ne_nil_of_valid h.namespace_),
    if_pos (ne_nil_of_valid h.tag), Spelling.text_of_more rfl]
  rfl

/-- `ParseName` puts back what `DisplayShortest` leaves out. -/
theorem parseName_displayShortest {n : Name} (h : n.Valid) :
    (parseName n.displayShortest).equalFold n = true ∧
      (parseName n.displayShortest).protocolScheme = defaultProtocolScheme := by
  have hself := fun s => DiskCache.equalFold_self s
  cases hhost : DiskCache.equalFold n.host defaultHost with
  | false =>
    have htext : n.displayShortest = (n.spelled (some n.host) (some n.namespace_)).text := by
      rw [displayShortest, if_pos hhost, Spelling.text_of_more rfl]
      simp [spelled, Spelling.front, Spelling.slashed, Spelling.coloned]
    rw [htext, parseName_spelled h (fun _ => rfl) (by rintro p ⟨⟩; rfl) (by rintro p ⟨⟩; rfl)]
    exact ⟨by simp [equalFold, hself], rfl⟩
  | true =>
    have hhost' : DiskCache.equalFold defaultHost n.host = true :=
      beq_iff_eq.mpr (beq_iff_eq.mp hhost).symm
    cases hspace : DiskCache.equalFold n.namespace_ defaultNamespace with
    | false =>
      have htext : n.displayShortest = (n.spelled none (some n.namespace_)).text := by
        rw [displayShortest, if_neg (by simp [hhost]), if_pos hspace, Spelling.text_of_more rfl]
        simp [spelled, Spelling.front, Spelling.slashed, Spelling.coloned]
      rw [htext, parseName_spelled h (fun _ => rfl) (by rintro p ⟨⟩; rfl) (by simp)]
      exact ⟨by simp [equalFold, hself, hhost'], rfl⟩
    | true =>
      have hspace' : DiskCache.equalFold defaultNamespace n.namespace_ = true :=
        beq_iff_eq.mpr (beq_iff_eq.mp hspace).symm
      have htext : n.displayShortest = (n.spelled none none).text := by
        rw [displayShortest, if_neg (by simp [hhost]), if_neg (by simp [hspace]),
          Spelling.text_of_more rfl]
        simp [spelled, Spelling.front, Spelling.slashed, Spelling.coloned]
      rw [htext, parseName_spelled h (by simp) (by simp) (by simp)]
      exact ⟨by simp [equalFold, hself, hhost', hspace'], rfl⟩

/-! ## The path -/

/-- A byte as a rune and back. -/
theorem ofNat_toNat_byte (b : UInt8) : UInt8.ofNat (Char.ofNat b.toNat).toNat = b := by
  have hbyte : ∀ n < 256, UInt8.ofNat (Char.ofNat n).toNat = UInt8.ofNat n := by decide +kernel
  rw [hbyte b.toNat b.toNat_lt, UInt8.ofNat_toNat]

theorem plain_of_valid {kind : PartKind} {s : GoString} (h : isValidPart kind s = true) :
    Plain (s.map fun b => Char.ofNat b.toNat) := by
  have hback : ∀ {t : List Char}, (s.map fun b => Char.ofNat b.toNat) = t →
      s = t.map fun c => UInt8.ofNat c.toNat := by
    rintro t rfl
    rw [List.map_map]
    exact (List.map_id'' (fun b => ofNat_toNat_byte b) s).symm
  have hhead := head_of_valid h
  refine ⟨fun heq => ne_nil_of_valid h (hback heq), fun heq => ?_, fun heq => ?_, fun hmem => ?_⟩
  · rw [hback heq] at hhead
    exact hhead rfl
  · rw [hback heq] at hhead
    exact hhead rfl
  · obtain ⟨b, hb, heq⟩ := List.mem_map.mp hmem
    have hslash : b = 0x2F := by
      rw [← ofNat_toNat_byte b, heq]
      rfl
    exact slash_of_valid h (hslash ▸ hb)

/-- There is nothing to clean in the path of a name. -/
theorem filepath_of_valid {n : Name} (h : n.Valid) : n.filepath =
    some (n.host ++ 0x2F :: (n.namespace_ ++ 0x2F :: (n.model ++ 0x2F :: n.tag))) := by
  have hfilter : [n.host, n.namespace_, n.model, n.tag].filter (· ≠ []) =
      [n.host, n.namespace_, n.model, n.tag] := by
    simp [ne_nil_of_valid h.host, ne_nil_of_valid h.namespace_, ne_nil_of_valid h.model,
      ne_nil_of_valid h.tag]
  have hback : ∀ s : GoString, (s.map fun b => Char.ofNat b.toNat).map
      (fun c => UInt8.ofNat c.toNat) = s := fun s => by
    rw [List.map_map]
    exact List.map_id'' (fun b => ofNat_toNat_byte b) s
  have hplain : ∀ c ∈ [n.host, n.namespace_, n.model, n.tag].map fun p : GoString =>
      p.map fun b => Char.ofNat b.toNat, Plain c := by
    simp only [List.map_cons, List.map_nil, List.forall_mem_cons]
    exact ⟨plain_of_valid h.host, plain_of_valid h.namespace_, plain_of_valid h.model,
      plain_of_valid h.tag, fun c hc => nomatch hc⟩
  rw [filepath, if_pos ((isFullyQualified_iff n).mpr h), filepathJoin]
  rw [hfilter, if_neg (List.cons_ne_nil _ _),
    clean_joinSlash (by simp only [List.map_cons]; exact List.cons_ne_nil _ _) hplain]
  simp only [List.map_cons, List.map_nil, joinSlash, List.map_append, hback]
  rfl

theorem splitSep_path {n : Name} (h : n.Valid) :
    splitSep 0x2F (n.host ++ 0x2F :: (n.namespace_ ++ 0x2F :: (n.model ++ 0x2F :: n.tag))) =
      [n.host, n.namespace_, n.model, n.tag] := by
  rw [splitSep_cons (slash_of_valid h.host), splitSep_cons (slash_of_valid h.namespace_),
    splitSep_cons (slash_of_valid h.model), splitSep_self (slash_of_valid h.tag)]

/-! ## The round trips -/

/-- A fully qualified name is parsed from each of its three texts, and its path has four elements
that lead into directories. -/
theorem roundTrips {n : Name} (hfq : n.isFullyQualified = true)
    (hscheme : n.protocolScheme = defaultProtocolScheme) :
    parseName n.toString = n ∧
      ((parseName n.displayShortest).equalFold n = true ∧
        (parseName n.displayShortest).protocolScheme = n.protocolScheme) ∧
      ∃ path, n.filepath = some path ∧
        parseNameFromFilepath path = ⟨n.host, n.namespace_, n.model, n.tag, []⟩ ∧
        (splitSep 0x2F path).length = 4 ∧
        ∀ elem ∈ splitSep 0x2F path, elem ≠ [] ∧ elem ≠ lit "." ∧ elem ≠ lit ".." ∧
          0x2F ∉ elem := by
  have h := (isFullyQualified_iff n).mp hfq
  refine ⟨?_, hscheme ▸ parseName_displayShortest h, _, filepath_of_valid h, ?_, ?_, ?_⟩
  · rw [toString_spelled h,
      parseName_spelled h (fun _ => rfl) (by rintro p ⟨⟩; rfl) (by rintro p ⟨⟩; rfl), ← hscheme]
    rfl
  · rw [parseNameFromFilepath, splitSep_path h]
    exact if_pos ((isFullyQualified_iff _).mpr ⟨h.host, h.namespace_, h.model, h.tag⟩)
  · rw [splitSep_path h]
    rfl
  · have helem : ∀ {kind : PartKind} {s : GoString}, isValidPart kind s = true →
        s ≠ [] ∧ s ≠ lit "." ∧ s ≠ lit ".." ∧ 0x2F ∉ s := fun hs =>
      ⟨ne_nil_of_valid hs, fun heq => head_of_valid hs (heq ▸ by decide),
        fun heq => head_of_valid hs (heq ▸ by decide), slash_of_valid hs⟩
    rw [splitSep_path h]
    simp only [List.forall_mem_cons]
    exact ⟨helem h.host, helem h.namespace_, helem h.model, helem h.tag, fun c hc => nomatch hc⟩

theorem roundTrips_port :
    let n : Name := ⟨lit "Registry.Ollama.AI", lit "my-ns", lit "m.1", lit "7b", lit "https"⟩
    parseName n.toString = n ∧
      ((parseName n.displayShortest).equalFold n = true ∧
        (parseName n.displayShortest).protocolScheme = n.protocolScheme) ∧
      ∃ path, n.filepath = some path ∧
        parseNameFromFilepath path = ⟨n.host, n.namespace_, n.model, n.tag, []⟩ ∧
        (splitSep 0x2F path).length = 4 ∧
        ∀ elem ∈ splitSep 0x2F path, elem ≠ [] ∧ elem ≠ lit "." ∧ elem ≠ lit ".." ∧
          0x2F ∉ elem :=
  roundTrips (by decide) rfl

end Name

end Prismalama.Types
