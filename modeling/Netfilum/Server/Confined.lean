import Netfilum.Lib.UnixPath
import Netfilum.Server.Path

namespace Netfilum

open Posix

/-!
# Which request paths are accepted

`normalize_relative_path` accepts the paths that do not start at the root directory and have
no segment `..`, and keeps the segments that are neither empty nor `.`.

* `normalizeRelativePath_eq_ok_iff` — what is accepted, and the names it is reduced to.
* `isName_keptSegments` — each of these names is one normal component.
* `normalizeRelativePath_text` — the text of the result is normalised to the result.
* `normalizeRelativePath_confined` — all of it, with the result below any root.
-/

/-- What lies between the slashes of a request path, backslashes read as slashes. -/
def segments (raw : String) : List (List Char) := (slashed raw).splitOn '/'

/-- A segment that is neither empty nor a dot. -/
def isKept (part : List Char) : Bool := part ≠ [] ∧ part ≠ ['.']

/-- The segments that are neither empty nor a dot. -/
def keptSegments (raw : String) : List (List Char) := (segments raw).filter isKept

/-- The path does not start with a slash, and no segment is `..`. -/
def Confined (raw : String) : Prop :=
  (slashed raw).head? ≠ some '/' ∧ ['.', '.'] ∉ segments raw

instance (raw : String) : Decidable (Confined raw) := inferInstanceAs (Decidable (_ ∧ _))

/-- The bytes of the `PathBuf` that the names are pushed to. -/
def pathBytes (names : List Name) : List UInt8 := UnixPath.pushAll 47 [] names

/-! ### What is accepted -/

/-- The loop over the components that segments give. -/
theorem cleanComponents_segments (clean : List Name) (parts : List (List Char)) :
    cleanComponents clean (parts.filterMap segment)
      = if ['.', '.'] ∈ parts then .error "path traversal is not allowed"
        else .ok (clean ++ (parts.filter isKept).map Utf8.encodeChars) := by
  induction parts generalizing clean with
  | nil => simp [cleanComponents]
  | cons part parts ih =>
    by_cases hskip : part = [] ∨ part = ['.']
    · have hseg : segment part = none := by rcases hskip with rfl | rfl <;> rfl
      have hne : ['.', '.'] ≠ part := by rcases hskip with rfl | rfl <;> decide
      have hmem : ['.', '.'] ∈ part :: parts ↔ ['.', '.'] ∈ parts := by
        rw [List.mem_cons, or_iff_right hne]
      have hdrop : ¬ isKept part = true := by rcases hskip with rfl | rfl <;> decide
      rw [List.filterMap_cons_none hseg, ih, List.filter_cons_of_neg hdrop]
      simp only [hmem]
    · obtain ⟨hnil, hdot⟩ := not_or.mp hskip
      by_cases hup : part = ['.', '.']
      · subst hup
        rw [if_pos (List.mem_cons_self ..)]
        rfl
      · have hseg : segment part = some (.normal part) := by
          unfold segment
          split
          · exact absurd rfl hnil
          · exact absurd rfl hdot
          · exact absurd rfl hup
          · rfl
        have hmem : ['.', '.'] ∈ part :: parts ↔ ['.', '.'] ∈ parts := by
          rw [List.mem_cons, or_iff_right (Ne.symm hup)]
        have hkeep : isKept part = true := decide_eq_true ⟨hnil, hdot⟩
        rw [List.filterMap_cons_some hseg, List.filter_cons_of_pos hkeep]
        show cleanComponents (clean ++ [Utf8.encodeChars part]) _ = _
        rw [ih, List.map_cons, List.append_assoc]
        simp only [hmem]
        rfl

/-- **What is accepted**, and what it is reduced to. -/
theorem normalizeRelativePath_eq_ok_iff {raw : String} {rel : List Name} :
    normalizeRelativePath raw = .ok rel ↔
      Confined raw ∧ rel = (keptSegments raw).map Utf8.encodeChars := by
  unfold normalizeRelativePath Confined
  by_cases hhead : (slashed raw).head? = some '/'
  · rw [if_pos hhead]
    exact iff_of_false (by rintro ⟨⟩) fun h => h.1.1 hhead
  · have hloop : cleanComponents [] (components (slashed raw))
        = cleanComponents [] ((segments raw).filterMap segment) := by
      unfold components
      rw [if_neg hhead]
      -- a dot in front is a component, which the loop skips
      split <;> rfl
    rw [if_neg hhead, hloop, cleanComponents_segments]
    by_cases hup : ['.', '.'] ∈ segments raw
    · rw [if_pos hup]
      exact iff_of_false (by rintro ⟨⟩) fun h => h.1.2 hup
    · rw [if_neg hup, Except.ok.injEq, List.nil_append]
      constructor
      · rintro rfl
        exact ⟨⟨hhead, hup⟩, rfl⟩
      · rintro ⟨-, rfl⟩
        rfl

/-! ### The names of the result -/

/-- A segment that is kept is a plain name. -/
theorem mem_keptSegments {raw : String} {part : List Char} (h : part ∈ keptSegments raw) :
    part ≠ [] ∧ part ≠ ['.'] ∧ '/' ∉ part ∧ '\\' ∉ part ∧ part ∈ segments raw := by
  obtain ⟨hmem, hkept⟩ := List.mem_filter.mp h
  obtain ⟨hnil, hdot⟩ := of_decide_eq_true hkept
  obtain ⟨hslash, hsub⟩ := UnixPath.mem_splitOn hmem
  refine ⟨hnil, hdot, hslash, fun hback => ?_, hmem⟩
  -- no backslash is left in the path
  obtain ⟨c, -, hc⟩ := List.mem_map.mp (hsub _ hback)
  split at hc
  · cases hc
  · contradiction

/-- What is kept of a confined path is one normal component each. -/
theorem isName_keptSegments {raw : String} (h : Confined raw) :
    ∀ name ∈ (keptSegments raw).map Utf8.encodeChars, UnixPath.IsName 47 46 name := by
  intro name hmem
  obtain ⟨part, hpart, rfl⟩ := List.mem_map.mp hmem
  obtain ⟨hnil, hdot, hslash, -, hseg⟩ := mem_keptSegments hpart
  refine ⟨fun hbyte => ?_, ?_⟩
  · obtain ⟨c, hc, hcode⟩ := Utf8.mem_encodeChars (by decide) hbyte
    have heq : c = '/' := Char.toNat_inj.mp hcode
    exact hslash (heq ▸ hc)
  · have hne : ∀ cs : List Char, part ≠ cs → Utf8.encodeChars part ≠ Utf8.encodeChars cs :=
      fun cs hcs heq => hcs (Utf8.encodeChars_injective heq)
    have hup : part ≠ ['.', '.'] := fun heq => h.2 (heq ▸ hseg)
    exact (if_neg (not_or.mpr ⟨hne [] hnil, hne ['.'] hdot⟩)).trans (if_neg (hne ['.', '.'] hup))

/-- Joining texts joins their bytes. -/
theorem intercalate_encodeChars (parts : List (List Char)) :
    List.intercalate [47] (parts.map Utf8.encodeChars)
      = Utf8.encodeChars (List.intercalate ['/'] parts) := by
  induction parts with
  | nil => rfl
  | cons part parts ih =>
    cases parts with
    | nil => simp
    | cons next parts =>
      rw [List.map_cons, List.map_cons, List.intercalate_cons_cons, ← List.map_cons, ih,
        List.intercalate_cons_cons, Utf8.encodeChars_append, Utf8.encodeChars_append]
      rfl

/-- The text of the result: the kept segments with slashes in between. -/
def keptText (raw : String) : String := String.ofList (List.intercalate ['/'] (keptSegments raw))

/-- The path of the segments that are kept has the bytes of their text. -/
theorem pathBytes_keptSegments {raw : String} (h : Confined raw) :
    pathBytes ((keptSegments raw).map Utf8.encodeChars) = Utf8.encode (keptText raw) := by
  have hname := isName_keptSegments h
  unfold keptText Utf8.encode
  rw [String.toList_ofList, ← intercalate_encodeChars]
  unfold pathBytes
  cases hkept : keptSegments raw with
  | nil => rfl
  | cons first rest =>
    rw [hkept, List.map_cons] at hname
    have hfirst := hname _ List.mem_cons_self
    have hrest : ∀ name ∈ rest.map Utf8.encodeChars, UnixPath.IsName 47 46 name :=
      fun name hn => hname name (List.mem_cons_of_mem _ hn)
    rw [List.map_cons, UnixPath.pushAll_cons hfirst,
      UnixPath.pushAll_eq_intercalate hfirst.ne_nil hfirst.getLast_ne hrest]

/-! ### Once more -/

/-- Joining with slashes brings in no other character. -/
theorem not_mem_intercalate {c : Char} (hc : c ≠ '/') {parts : List (List Char)}
    (h : ∀ part ∈ parts, c ∉ part) : c ∉ List.intercalate ['/'] parts := by
  induction parts with
  | nil => exact List.not_mem_nil
  | cons part parts ih =>
    have hpart := h part List.mem_cons_self
    cases parts with
    | nil => rwa [List.intercalate_singleton]
    | cons next parts =>
      have hrest := ih fun p hp => h p (List.mem_cons_of_mem _ hp)
      rw [List.intercalate_cons_cons]
      simp [hpart, hc, hrest]

/-- There is no backslash left to be read as a slash. -/
theorem slashed_keptText (raw : String) :
    slashed (keptText raw) = List.intercalate ['/'] (keptSegments raw) := by
  have hback : '\\' ∉ List.intercalate ['/'] (keptSegments raw) :=
    not_mem_intercalate (by decide) fun part hpart => (mem_keptSegments hpart).2.2.2.1
  unfold slashed keptText
  rw [String.toList_ofList]
  conv_rhs => rw [← List.map_id (List.intercalate ['/'] (keptSegments raw))]
  refine List.map_congr_left fun c hc => if_neg ?_
  rintro rfl
  exact hback hc

/-- The segments of the text are the kept ones; the empty text has one that is empty. -/
theorem segments_keptText (raw : String) :
    segments (keptText raw) = if keptSegments raw = [] then [[]] else keptSegments raw := by
  unfold segments
  rw [slashed_keptText]
  by_cases hnil : keptSegments raw = []
  · rw [if_pos hnil, hnil]
    rfl
  · rw [if_neg hnil]
    exact List.splitOn_intercalate '/' (fun part hpart => (mem_keptSegments hpart).2.2.1) hnil

/-- The segments that are kept are those of the text they make. -/
theorem keptSegments_keptText (raw : String) : keptSegments (keptText raw) = keptSegments raw := by
  have hfilter : (keptSegments raw).filter isKept = keptSegments raw := by
    unfold keptSegments
    rw [List.filter_filter]
    simp
  have hkept : keptSegments (keptText raw) = (segments (keptText raw)).filter isKept := rfl
  rw [hkept, segments_keptText]
  by_cases hnil : keptSegments raw = []
  · rw [if_pos hnil, hnil]
    rfl
  · rw [if_neg hnil, hfilter]

/-- The text of the result is accepted. -/
theorem confined_keptText {raw : String} (h : Confined raw) : Confined (keptText raw) := by
  have hsegments := segments_keptText raw
  constructor
  · intro hhead
    obtain ⟨rest, hrest⟩ := List.head?_eq_some_iff.mp hhead
    -- a slash in front leaves an empty segment, and none was kept
    have hempty : segments (keptText raw) = [] :: rest.splitOn '/' := by
      unfold segments
      rw [hrest, List.splitOn_cons_eq_if_modifyHead, if_pos (beq_iff_eq.mpr rfl)]
    by_cases hnil : keptSegments raw = []
    · rw [slashed_keptText, hnil] at hhead
      cases hhead
    · rw [hempty, if_neg hnil] at hsegments
      have hmem : [] ∈ keptSegments raw := hsegments ▸ List.mem_cons_self
      exact (mem_keptSegments hmem).1 rfl
  · rw [hsegments]
    intro hup
    split at hup
    · exact absurd (List.mem_singleton.mp hup) (by decide)
    · exact h.2 (mem_keptSegments hup).2.2.2.2

/-- **The text of the result is normalised to the result.** -/
theorem normalizeRelativePath_text {raw : String} {rel : List Name}
    (h : normalizeRelativePath raw = .ok rel) :
    Utf8.decode (pathBytes rel) = some (keptText raw) ∧
      normalizeRelativePath (keptText raw) = .ok rel := by
  obtain ⟨hconfined, rfl⟩ := normalizeRelativePath_eq_ok_iff.mp h
  refine ⟨?_, normalizeRelativePath_eq_ok_iff.mpr ⟨confined_keptText hconfined, ?_⟩⟩
  · rw [pathBytes_keptSegments hconfined, Utf8.decode_encode]
  · rw [keptSegments_keptText]

/-! ### Below the root -/

/-- **The confined paths are accepted, and nothing else.**  What is accepted is reduced to the
    segments that are neither empty nor a dot, in order: a relative path of normal components
    only, which joined to any path adds these and takes nothing away.  Its text is accepted
    again, and reduced to the same. -/
theorem normalizeRelativePath_confined (raw : String) :
    ((∃ rel, normalizeRelativePath raw = .ok rel) ↔ Confined raw) ∧
    ∀ rel, normalizeRelativePath raw = .ok rel →
      rel = (keptSegments raw).map Utf8.encodeChars ∧
      UnixPath.components 47 46 (pathBytes rel) = rel.map .normal ∧
      (pathBytes rel).head? ≠ some 47 ∧
      (∀ root : List UInt8, UnixPath.components 47 46 (UnixPath.push 47 root (pathBytes rel))
        = UnixPath.components 47 46 root ++ rel.map .normal) ∧
      ∃ text, Utf8.decode (pathBytes rel) = some text ∧ normalizeRelativePath text = .ok rel := by
  constructor
  · constructor
    · rintro ⟨rel, h⟩
      exact (normalizeRelativePath_eq_ok_iff.mp h).1
    · intro h
      exact ⟨_, normalizeRelativePath_eq_ok_iff.mpr ⟨h, rfl⟩⟩
  · intro rel h
    obtain ⟨hconfined, hrel⟩ := normalizeRelativePath_eq_ok_iff.mp h
    have hnames : ∀ name ∈ rel, UnixPath.IsName 47 46 name := hrel ▸ isName_keptSegments hconfined
    have hcomponents : UnixPath.components 47 46 (pathBytes rel) = rel.map .normal := by
      have := UnixPath.components_pushAll [] hnames
      rwa [UnixPath.components_nil, List.nil_append] at this
    refine ⟨hrel, hcomponents, fun hhead => ?_, fun root =>
      UnixPath.components_push_pushAll root hnames, keptText raw, normalizeRelativePath_text h⟩
    -- a slash in front would be a component that is not normal
    unfold UnixPath.components at hcomponents
    rw [if_pos hhead] at hcomponents
    cases rel with
    | nil => cases hcomponents
    | cons name rest => cases hcomponents

/-- Both separators, a dot, and a name that only looks like two dots. -/
theorem normalizeRelativePath_confined_mixed :
    Confined "a\\./.. //" ∧
      UnixPath.components 47 46 (UnixPath.push 47 [47, 114] (pathBytes [[97], [46, 46, 32]]))
        = [.rootDir, .normal [114], .normal [97], .normal [46, 46, 32]] ∧
      ∃ text, Utf8.decode (pathBytes [[97], [46, 46, 32]]) = some text ∧
        normalizeRelativePath text = .ok [[97], [46, 46, 32]] := by
  have hok : normalizeRelativePath "a\\./.. //" = .ok [[97], [46, 46, 32]] := by decide
  obtain ⟨hiff, hresult⟩ := normalizeRelativePath_confined "a\\./.. //"
  obtain ⟨-, -, -, hbelow, htext⟩ := hresult _ hok
  exact ⟨hiff.mp ⟨_, hok⟩, (hbelow [47, 114]).trans (by decide), htext⟩

end Netfilum
