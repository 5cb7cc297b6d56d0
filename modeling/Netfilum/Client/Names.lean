import Netfilum.Client.Convert
import Netfilum.Server.Path
import Netfilum.Server.Resolve

namespace Netfilum

open Posix

/-!
# File names of Windows as paths of the server

A file name comes from WinFsp with a backslash before every component; the client turns
it into the path of a request, and the server normalises this into names.

* `Names` — a file name and its components.
* `ntPathToRelative_of_ntPath` — the client cuts the first backslash and turns the others into
  slashes.
* `paths_agree` — the server finds the components of the file name, and nothing else.
-/

/-- A component of a file name. -/
structure NtComponent (name : String) : Prop where
  ne_empty     : name ≠ ""
  no_slash     : '/' ∉ name.toList
  no_backslash : '\\' ∉ name.toList
  no_nul       : '\x00' ∉ name.toList
  ne_dot       : name ≠ "."
  ne_dotdot    : name ≠ ".."

/-- The file name with these components, each behind a backslash. -/
def ntName (names : List String) : List UInt16 :=
  names.flatMap fun name => 0x5C :: Utf16.encode name.toList

/-- The file name has these components; without any, it may also be a single backslash. -/
structure NtPath (fileName : List UInt16) (names : List String) : Prop where
  valid : ∀ name ∈ names, NtComponent name
  spell : fileName = ntName names ∨ names = [] ∧ fileName = [0x5C]

/-- A component is read by the server as one plain name. -/
theorem NtComponent.plain {name : String} (h : NtComponent name) : PlainName name where
  no_slash := h.no_slash
  no_backslash := h.no_backslash
  kept := by
    have hempty : name.toList ≠ [] := fun heq => h.ne_empty (String.toList_inj.mp heq)
    have hdot : name.toList ≠ ['.'] := fun heq => h.ne_dot (String.toList_inj.mp heq)
    have hdotdot : name.toList ≠ ['.', '.'] := fun heq =>
      h.ne_dotdot (String.toList_inj.mp heq)
    unfold segment
    split
    · exact absurd ‹_› hempty
    · exact absurd ‹_› hdot
    · exact absurd ‹_› hdotdot
    · rfl

/-! ### The client's half -/

/-- The text of a name with backslashes is its components behind backslashes. -/
theorem lossy_ntName (names : List String) :
    Utf16.lossy (ntName names) = names.flatMap fun name => '\\' :: name.toList := by
  have henc : ntName names = Utf16.encode (names.flatMap fun name => '\\' :: name.toList) := by
    unfold ntName Utf16.encode
    rw [List.flatMap_assoc]
    rfl
  rw [henc, Utf16.lossy_encode]

/-- The replacement of backslashes leaves the components alone. -/
theorem slashes_ntName {names : List String} (h : ∀ name ∈ names, NtComponent name) :
    (names.flatMap fun name => '\\' :: name.toList).map (fun c => if c = '\\' then '/' else c)
      = names.flatMap fun name => '/' :: name.toList := by
  rw [List.map_flatMap]
  refine List.flatMap_congr fun name hname => ?_
  have hslashed := (h name hname).plain.slashed_eq
  rw [List.map_cons, if_pos rfl]
  exact congrArg _ hslashed

/-- The path with these names, as the requests for them spell it. -/
def requestPath (names : List String) : String := names.foldl childPath ""

/-- The path of the components is their texts behind slashes. -/
theorem toList_foldl_childPath {path : String} (hpath : path ≠ "") (names : List String) :
    (names.foldl childPath path).toList
      = path.toList ++ names.flatMap fun name => '/' :: name.toList := by
  induction names generalizing path with
  | nil => simp
  | cons name names ih =>
    have hne : path ++ "/" ++ name ≠ "" := by simp [hpath]
    rw [List.foldl_cons, childPath, if_neg hpath, ih hne]
    simp

/-- The client cuts the first backslash and turns the others into slashes. -/
theorem ntPathToRelative_of_ntPath {fileName : List UInt16} {names : List String}
    (h : NtPath fileName names) : ntPathToRelative fileName = requestPath names := by
  rcases h.spell with rfl | ⟨rfl, rfl⟩
  · unfold ntPathToRelative
    rw [lossy_ntName, slashes_ntName h.valid]
    cases names with
    | nil => rfl
    | cons name names =>
      have hname := h.valid name List.mem_cons_self
      refine String.toList_inj.mp ?_
      obtain ⟨c, cs, hcs⟩ : ∃ c cs, name.toList = c :: cs :=
        List.exists_cons_of_ne_nil fun heq => hname.ne_empty (String.toList_inj.mp heq)
      have hc : c ≠ '/' := fun heq => hname.no_slash (by rw [hcs, heq]; exact List.mem_cons_self)
      show (String.ofList (('/' :: (name.toList ++
        names.flatMap fun name => '/' :: name.toList)).dropWhile (· = '/'))).toList
          = (names.foldl childPath (childPath "" name)).toList
      rw [String.toList_ofList, childPath, if_pos rfl, toList_foldl_childPath hname.ne_empty,
        List.dropWhile_cons_of_pos (by simp), hcs, List.cons_append,
        List.dropWhile_cons_of_neg (by simp [hc])]
  · rfl

/-! ### The server's half -/

/-- The names of the path are the components' bytes. -/
theorem normalizeRelativePath_foldl {names : List String} (h : ∀ name ∈ names, NtComponent name)
    {path : String} {rel : List Name} (hpath : normalizeRelativePath path = .ok rel) :
    normalizeRelativePath (names.foldl childPath path) = .ok (rel ++ names.map Utf8.encode) := by
  induction names generalizing path rel with
  | nil =>
    rw [List.map_nil, List.append_nil]
    exact hpath
  | cons name names ih =>
    have hname := (h name List.mem_cons_self).plain
    rw [List.foldl_cons, ih (fun n hn => h n (List.mem_cons_of_mem _ hn))
      (normalizeRelativePath_child hname hpath), List.append_assoc]
    rfl

/-- The server finds the components of the file name. -/
theorem normalize_ntPath {fileName : List UInt16} {names : List String}
    (h : NtPath fileName names) :
    normalizeRelativePath (ntPathToRelative fileName) = .ok (names.map Utf8.encode) := by
  rw [ntPathToRelative_of_ntPath h]
  exact normalizeRelativePath_foldl h.valid (show normalizeRelativePath "" = .ok [] by decide)

/-- One more component makes one more name. -/
theorem ntPath_child {fileName : List UInt16} {names : List String} {name : String}
    (h : NtPath fileName names) (hname : NtComponent name) :
    NtPath (ntName names ++ 0x5C :: Utf16.encode name.toList) (names ++ [name]) where
  valid n hn := (List.mem_append.mp hn).elim (h.valid n) fun hn =>
    List.mem_singleton.mp hn ▸ hname
  spell := .inl (by unfold ntName; rw [List.flatMap_append, List.flatMap_singleton])

/-- The names of a joined path. -/
theorem names_of_join (root : PathBuf) (rel : List Name) :
    (root.join rel).names = root.names ++ rel := by
  unfold PathBuf.join
  by_cases hrel : rel = []
  · rw [if_pos hrel, hrel, List.append_nil]
  · rw [if_neg hrel]

/-- What a request path is joined to determines it. -/
theorem join_injective {root : PathBuf} {rel rel' : List Name}
    (h : root.join rel = root.join rel') :
    rel = rel' := by
  have hnames := congrArg PathBuf.names h
  rw [names_of_join, names_of_join] at hnames
  exact List.append_cancel_left hnames

/-- **Client and server agree on paths.**  The request path that the client makes of a file
    name is normalised to exactly its components, so it denotes them below the root of the
    server; different components denote different paths; and the name of a child denotes
    the path of the directory with one more component. -/
theorem paths_agree :
    (∀ fileName names, NtPath fileName names →
      normalizeRelativePath (ntPathToRelative fileName) = .ok (names.map Utf8.encode))
    ∧ (∀ (srv : RpcServer) fileName names, NtPath fileName names →
      srv.Joins (ntPathToRelative fileName) (srv.root.join (names.map Utf8.encode)) ∧
        (srv.root.join (names.map Utf8.encode)).names
          = srv.root.names ++ names.map Utf8.encode)
    ∧ (∀ (srv : RpcServer) fileName fileName' names names' path, NtPath fileName names →
      NtPath fileName' names' → srv.Joins (ntPathToRelative fileName) path →
        srv.Joins (ntPathToRelative fileName') path → names = names')
    ∧ ∀ fileName names name, NtPath fileName names → NtComponent name →
      normalizeRelativePath
          (ntPathToRelative (ntName names ++ 0x5C :: Utf16.encode name.toList))
        = .ok (names.map Utf8.encode ++ [Utf8.encode name]) := by
  refine ⟨fun _ _ => normalize_ntPath, ?_, ?_, ?_⟩
  · intro srv fileName names h
    exact ⟨⟨_, normalize_ntPath h, rfl⟩, names_of_join _ _⟩
  · rintro srv fileName fileName' names names' path h h' ⟨rel, hrel, rfl⟩ ⟨rel', hrel', heq⟩
    rw [normalize_ntPath h] at hrel
    rw [normalize_ntPath h'] at hrel'
    cases hrel
    cases hrel'
    exact List.map_injective_iff.mpr (fun _ _ => Utf8.encode_injective) (join_injective heq)
  · intro fileName names name h hname
    rw [normalize_ntPath (ntPath_child h hname), List.map_append]
    rfl

/-- Blanks and dots in odd places, and a character outside the basic plane. -/
theorem paths_agree_dots : normalizeRelativePath (ntPathToRelative
    ([0x5C, 0x20, 0x2E] ++ [0x5C, 0x2E, 0x2E, 0x2E] ++ [0x5C, 0xD83D, 0xDCC1]))
      = .ok ([" .", "...", "📁"].map Utf8.encode) :=
  paths_agree.1 _ [" .", "...", "📁"] {
    valid := by
      intro name hname
      simp only [List.mem_cons, List.not_mem_nil, or_false] at hname
      rcases hname with rfl | rfl | rfl <;> constructor <;> decide
    spell := .inl (by decide) }

end Netfilum
