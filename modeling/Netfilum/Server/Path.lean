import Netfilum.Lib.Utf8
import Netfilum.Posix.Tree

namespace Netfilum

open Posix

/-!
# Request paths

`normalize_relative_path` of `crates/netfilum-server/src/path.rs`: the path string of a
request, with backslashes read as slashes, becomes a list of plain names or is refused.

`Path::components` is modelled as documented for Unix: the text is cut at slashes, empty
segments and every `.` but a leading one are dropped, and a leading slash is a component
of its own.
-/

/-- `std::path::Component` (on Unix there are no prefixes). -/
inductive Component where
  | rootDir
  | curDir
  | parentDir
  | normal (part : List Char)
  deriving DecidableEq, Repr

/-- The component a segment between slashes stands for, if it is kept. -/
def segment : List Char → Option Component
  | []         => none
  -- dropped, unless it stands at the front of the path
  | ['.']      => none
  | ['.', '.'] => some .parentDir
  | part       => some (.normal part)

/-- `Path::components`. -/
def components (path : List Char) : List Component :=
  (if path.head? = some '/' then [.rootDir]
    else if (path.splitOn '/').head? = some ['.'] then [.curDir] else [])
  ++ (path.splitOn '/').filterMap segment

/-- `str::replace('\\', "/")`. -/
def slashed (raw : String) : List Char := raw.toList.map fun c => if c = '\\' then '/' else c

/-- The loop over the components: `clean` grows by one name at a time. -/
def cleanComponents (clean : List Name) : List Component → Except String (List Name)
  | []                   => .ok clean
  | .curDir :: rest      => cleanComponents clean rest
  | .normal part :: rest => cleanComponents (clean ++ [Utf8.encodeChars part]) rest
  -- refused even where it would stay inside
  | .parentDir :: _      => .error "path traversal is not allowed"
  | .rootDir :: _        => .error "absolute paths are not allowed"

/-- `normalize_relative_path`. -/
def normalizeRelativePath (raw : String) : Except String (List Name) :=
  -- `is_absolute`, after the backslashes have become slashes
  if (slashed raw).head? = some '/' then .error "absolute paths are not allowed"
  else cleanComponents [] (components (slashed raw))

example : normalizeRelativePath "folder\\child/file.txt"
    = .ok (["folder", "child", "file.txt"].map Utf8.encode) := by decide

/-! ### Appending a name -/

/-- A text that is one plain name in a request path. -/
structure PlainName (name : String) : Prop where
  no_slash     : '/' ∉ name.toList
  no_backslash : '\\' ∉ name.toList
  kept         : segment name.toList = some (.normal name.toList)

/-- The request path of the entry `name` in the directory that `path` stands for. -/
def childPath (path name : String) : String :=
  if path = "" then name else path ++ "/" ++ name

/-- Slashes are put in piece by piece. -/
theorem slashed_append (s s' : String) : slashed (s ++ s') = slashed s ++ slashed s' := by
  unfold slashed
  rw [String.toList_append, List.map_append]

/-- A plain name is read as it is. -/
theorem PlainName.slashed_eq {name : String} (h : PlainName name) :
    slashed name = name.toList := by
  unfold slashed
  conv_rhs => rw [← List.map_id name.toList]
  refine List.map_congr_left fun c hc => if_neg ?_
  rintro rfl
  exact h.no_backslash hc

/-- A plain name is one segment. -/
theorem PlainName.splitOn_eq {name : String} (h : PlainName name) :
    name.toList.splitOn '/' = [name.toList] := List.splitOn_eq_singleton h.no_slash

/-- A plain name is a path of one component. -/
theorem PlainName.components_eq {name : String} (h : PlainName name) :
    components name.toList = [.normal name.toList] := by
  have hslash : name.toList.head? ≠ some '/' := fun hc => h.no_slash (List.mem_of_head? hc)
  have hdot : name.toList ≠ ['.'] := by
    intro heq
    have hkept := h.kept
    rw [heq] at hkept
    cases hkept
  unfold components
  rw [h.splitOn_eq, if_neg hslash, if_neg (by simpa using hdot), List.nil_append,
    List.filterMap_cons_some h.kept, List.filterMap_nil]

/-- A slash and a plain name add one component. -/
theorem PlainName.components_append {name : String} (h : PlainName name) {cs : List Char}
    (hcs : cs ≠ []) :
    components (cs ++ '/' :: name.toList) = components cs ++ [.normal name.toList] := by
  have hsplit : (cs ++ '/' :: name.toList).splitOn '/' = cs.splitOn '/' ++ [name.toList] := by
    rw [List.splitOn_append_cons_self, h.splitOn_eq]
  have hhead : (cs ++ '/' :: name.toList).head? = cs.head? := List.head?_append_of_ne_nil cs hcs
  have hsplitHead : (cs.splitOn '/' ++ [name.toList]).head? = (cs.splitOn '/').head? :=
    List.head?_append_of_ne_nil _ (List.splitOn_ne_nil _ _)
  unfold components
  rw [hsplit, hhead, hsplitHead, List.filterMap_append, List.filterMap_cons_some h.kept,
    List.filterMap_nil, List.append_assoc]

/-- A plain segment at the end is one more name. -/
theorem cleanComponents_append {clean rel : List Name} {cs : List Component} {part : List Char}
    (h : cleanComponents clean cs = .ok rel) :
    cleanComponents clean (cs ++ [.normal part]) = .ok (rel ++ [Utf8.encodeChars part]) := by
  induction cs generalizing clean with
  | nil =>
    cases h
    rfl
  | cons c cs ih =>
    cases c with
    | curDir => exact ih h
    | normal p => exact ih h
    | parentDir => cases h
    | rootDir => cases h

/-- Appending a plain name to a request path appends it to the names it stands for. -/
theorem normalizeRelativePath_child {path name : String} {rel : List Name} (h : PlainName name)
    (hpath : normalizeRelativePath path = .ok rel) :
    normalizeRelativePath (childPath path name) = .ok (rel ++ [Utf8.encode name]) := by
  unfold normalizeRelativePath childPath at *
  by_cases hempty : path = ""
  · subst hempty
    have hrel : ([] : List Name) = rel := by
      have h0 : cleanComponents [] (components (slashed "")) = .ok [] := by decide
      rw [if_neg (by decide), h0] at hpath
      exact Except.ok.inj hpath
    subst hrel
    have hslash : name.toList.head? ≠ some '/' := fun hc => h.no_slash (List.mem_of_head? hc)
    rw [if_pos rfl, h.slashed_eq, if_neg hslash, h.components_eq]
    rfl
  · have hslashed : slashed (path ++ "/" ++ name) = slashed path ++ '/' :: name.toList := by
      rw [slashed_append, slashed_append, h.slashed_eq, List.append_assoc]
      rfl
    have hne : slashed path ≠ [] := by
      unfold slashed
      simpa using hempty
    rw [if_neg hempty, hslashed, List.head?_append_of_ne_nil _ hne, h.components_append hne]
    split at hpath
    · cases hpath
    · rename_i hslash
      rw [if_neg hslash]
      exact cleanComponents_append hpath

end Netfilum
