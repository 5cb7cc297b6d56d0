import Netfilum.Lib.FileService
import Netfilum.Server.Survival

namespace Netfilum

open Posix Program Rust

/-!
# An export without links

Where the exported directory holds only files and directories, what the server exports is a
tree of files and directories by paths: the abstract model of the server.

* `Plain` — the exported root is in place, and nothing below it is a link or cannot be named.
* `Plain.leads_iff`, `Plain.names_iff` — a request path leads to, and names, exactly what its
  names say.
* `Plain.view` — the tree of files and directories that is exported.
-/

variable {srv : RpcServer} {os : Os} {t t' : Tree} {relative : String} {path : PathBuf}
  {q d v : Loc} {x : Name} {rel : List Name}

/-- What stands at a location, without its attributes. -/
def bodyAt (t : Tree) (q : Loc) : Option Body := (t.look q).map Entry.body

/-- The shape at a place is that of the body. -/
theorem shape_eq_map_bodyAt (t : Tree) (q : Loc) : t.shape q = (bodyAt t q).map Body.shape := by
  unfold Tree.shape bodyAt
  rw [Option.map_map]
  rfl

/-- What the abstract model sees of it.  A link is nothing there. -/
def nodeOf : Body → Option (FileTree.Node UInt8)
  | .file data => some (.file data)
  | .dir _     => some .dir
  | .symlink _ => none

namespace RpcServer

/-- The exported root is in place, nothing below it is a link, and no name is out of reach. -/
structure Plain (srv : RpcServer) (t : Tree) : Prop where
  exported : srv.Exported t
  proper   : srv.rootReal ≠ []
  noLinks  : ∀ rel target, t.shape (srv.rootReal ++ rel) ≠ some (.symlink target)
  noNul    : ∀ rel, t.shape (srv.rootReal ++ rel) ≠ none → ∀ n ∈ rel, n.contains 0 = false

/-- No link, and no name that cannot be passed to the system. -/
def plainEntry (e : Entry) : Bool :=
  (match e.body with
    | .symlink _ => false
    | _          => true) && e.loc.all fun n => !n.contains 0

/-- The tree is plain if every entry is. -/
theorem Plain.of_entries (hexp : srv.Exported t) (hproper : srv.rootReal ≠ [])
    (hall : t.entries.all plainEntry = true) : srv.Plain t := by
  have hentry : ∀ rel s, t.shape (srv.rootReal ++ rel) = some s →
      (∀ target, s ≠ .symlink target) ∧ ∀ n ∈ srv.rootReal ++ rel, n.contains 0 = false := by
    intro rel s hs
    obtain ⟨e, he, rfl⟩ := Tree.shape_eq_some_iff.mp hs
    have hplain := List.all_eq_true.mp hall e (Tree.mem_of_look he)
    unfold plainEntry at hplain
    obtain ⟨hbody, hnames⟩ := Bool.and_eq_true_iff.mp hplain
    rw [Tree.look_loc he] at hnames
    refine ⟨fun target hlink => ?_, fun n hn => by simpa using List.all_eq_true.mp hnames n hn⟩
    unfold Entry.shape at hlink
    cases hb : e.body with
    | symlink target' => rw [hb] at hbody; cases hbody
    | file data => rw [hb] at hlink; cases hlink
    | dir size => rw [hb] at hlink; cases hlink
  refine ⟨hexp, hproper, fun rel target hs => (hentry rel _ hs).1 target rfl, fun rel hex => ?_⟩
  obtain ⟨s, hs⟩ := Option.ne_none_iff_exists'.mp hex
  exact fun n hn => (hentry rel s hs).2 n (List.mem_append_right _ hn)

/-- A joined path has a NUL where the root or one of the names has. -/
theorem hasNul_join {p : PathBuf} :
    (p.join rel).hasNul = false ↔ p.hasNul = false ∧ ∀ n ∈ rel, n.contains 0 = false := by
  unfold PathBuf.join PathBuf.hasNul
  split
  · rename_i h
    simp [h]
  · rw [List.any_append, Bool.or_eq_false_iff, List.any_eq_false (l := rel)]
    simp only [Bool.not_eq_true]

namespace Plain

/-- A walk to the exported root goes on from there. -/
theorem walk_root (h : srv.Plain t) :
    ∃ n, ∀ rel : List Name, walk t.shape maxLinks [] ((srv.root.names ++ rel).map .name)
      = walk t.shape n srv.rootReal (rel.map .name) := by
  obtain ⟨⟨⟨-, hres⟩, hdir⟩, -, -, -⟩ := h
  obtain ⟨n, hn⟩ := (names_join hres hdir []).walks
  unfold PathBuf.join at hn
  rw [if_neg (by simp), List.dropLast_concat] at hn
  refine ⟨n, fun rel => ?_⟩
  rw [List.map_append, walk_append, hn]
  rfl

/-- From the exported root names lead where they say, if something is there. -/
theorem walk_rel (h : srv.Plain t) {n m : Nat} :
    walk t.shape n srv.rootReal (rel.map .name) = .ok (q, m) →
      q = srv.rootReal ++ rel ∧ m = n := fun hwalk =>
  walk_names_eq rel h.noLinks hwalk

/-- The walk from the root over plain names ends where they say. -/
theorem walk_of_exists (h : srv.Plain t) {n : Nat} (hex : t.shape (srv.rootReal ++ rel) ≠ none) :
    walk t.shape n srv.rootReal (rel.map .name) = .ok (srv.rootReal ++ rel, n) := by
  obtain ⟨s, hs⟩ := Option.ne_none_iff_exists'.mp hex
  refine walk_names n srv.rootReal rel (fun u _ hu hne => Tree.shape_above hu hne hex) hs ?_
  rintro target rfl
  exact h.noLinks rel target hs

/-- A path below the exported root leads to what its names say. -/
theorem resolve_iff (h : srv.Plain t) :
    resolve t (srv.root.join rel) = .ok q ↔
      q = srv.rootReal ++ rel ∧ t.shape q ≠ none := by
  obtain ⟨n, hroot⟩ := h.walk_root
  rcases eq_or_ne rel [] with rfl | hne
  · rw [resolve_join_nil h.exported.1.2 h.exported.2, List.append_nil, Except.ok.injEq]
    refine ⟨?_, fun hq => hq.1.symm⟩
    rintro rfl
    exact ⟨rfl, by rw [h.exported.2]; simp⟩
  · have htodo : (srv.root.join rel).todo = (srv.root.names ++ rel).map .name := by
      unfold PathBuf.join PathBuf.todo
      rw [if_neg hne, if_neg Bool.false_ne_true, List.append_nil]
    rw [resolve_eq_ok, htodo]
    constructor
    · rintro ⟨m, hm⟩
      have hshape := shape_of_walk hm
      rw [hroot] at hm
      refine ⟨(h.walk_rel hm).1, ?_⟩
      rcases hshape with hs | hs <;> rw [hs] <;> simp
    · rintro ⟨rfl, hex⟩
      exact ⟨n, by rw [hroot, h.walk_of_exists hex]⟩

/-- A path leads to the place that its names say, if anything is there. -/
theorem leads_iff (h : srv.Plain t) :
    Fs.Leads t (srv.root.join rel) q ↔ q = srv.rootReal ++ rel ∧ t.shape q ≠ none := by
  unfold Fs.Leads
  rw [h.resolve_iff]
  refine ⟨fun hl => hl.2, fun hl => ⟨hasNul_join.mpr ⟨h.exported.1.1, ?_⟩, hl⟩⟩
  exact h.noNul rel (hl.1 ▸ hl.2)

/-- A path with a last name below the exported root names what its names say. -/
theorem names_iff (h : srv.Plain t) {y : Name} :
    Names t (srv.root.join (rel ++ [x])) d y ↔
      d = srv.rootReal ++ rel ∧ y = x ∧ t.shape d = some .dir := by
  constructor
  · intro hnames
    obtain ⟨n, hroot⟩ := h.walk_root
    obtain ⟨hlast, ⟨m, hm⟩, hdir⟩ := hnames
    unfold PathBuf.join at hlast hm
    rw [if_neg (by simp)] at hlast hm
    rw [← List.append_assoc, List.getLast?_concat, Option.some.injEq] at hlast
    rw [← List.append_assoc, List.dropLast_concat, hroot] at hm
    exact ⟨(h.walk_rel hm).1, hlast.symm, hdir⟩
  · rintro ⟨rfl, rfl, hdir⟩
    have hres : resolve t (srv.root.join rel) = .ok (srv.rootReal ++ rel) :=
      h.resolve_iff.mpr ⟨rfl, by rw [hdir]; simp⟩
    rw [← PathBuf.join_join]
    exact names_join hres hdir y

/-- The path of the exported root names it, or a link that leads to it. -/
theorem names_root (h : srv.Plain t) (hnames : Names t (srv.root.join []) d x) :
    ∃ e, t.look (d ++ [x]) = some e ∧
      ((∀ target, e.shape ≠ .symlink target) → d ++ [x] = srv.rootReal) := by
  have hres : resolve t (srv.root.join []) = .ok srv.rootReal :=
    h.resolve_iff.mpr ⟨(List.append_nil _).symm, by rw [h.exported.2]; simp⟩
  obtain ⟨e, he, hq⟩ := hnames.entry_of_resolve hres
  exact ⟨e, he, fun hlink => (hq hlink).symm⟩

/-! ### The two checks -/

/-- What the server makes of the path of a request, if it is one. -/
theorem existing_iff (h : srv.Plain t) :
    srv.Existing t relative path q ↔ ∃ rel, normalizeRelativePath relative = .ok rel ∧
      path = srv.root.join rel ∧ q = srv.rootReal ++ rel ∧ t.shape q ≠ none := by
  constructor
  · rintro ⟨⟨rel, hrel, rfl⟩, hnul, hres, -⟩
    exact ⟨rel, hrel, rfl, h.resolve_iff.mp hres⟩
  · rintro ⟨rel, hrel, rfl, hq⟩
    have hleads := h.leads_iff.mpr hq
    exact ⟨⟨rel, hrel, rfl⟩, hleads.1, hleads.2, hq.1 ▸ List.prefix_append _ _⟩

/-- The parent of a path with a last name. -/
theorem leads_parent (h : srv.Plain t) :
    Fs.Leads t ⟨srv.root.names ++ rel, false⟩ q ↔
      q = srv.rootReal ++ rel ∧ t.shape q ≠ none := by
  rcases eq_or_ne rel [] with rfl | hne
  · have hnames : Names t (srv.root.join ([] ++ [[]])) srv.rootReal [] :=
      h.names_iff.mpr ⟨(List.append_nil _).symm, rfl, h.exported.2⟩
    have hres : resolve t ⟨srv.root.names ++ [], false⟩ = .ok srv.rootReal := by
      have hparent := hnames.resolve_parent
      unfold PathBuf.join at hparent
      rwa [if_neg (by simp), List.nil_append, List.dropLast_concat, ← List.append_nil
        srv.root.names] at hparent
    have hnul : PathBuf.hasNul ⟨srv.root.names ++ [], false⟩ = false := by
      rw [List.append_nil]
      exact h.exported.1.1
    constructor
    · rintro ⟨-, hq⟩
      rw [hres] at hq
      cases hq
      exact ⟨(List.append_nil _).symm, by rw [h.exported.2]; simp⟩
    · rintro ⟨rfl, -⟩
      exact ⟨hnul, by rw [hres, List.append_nil]⟩
  · rw [← h.leads_iff]
    unfold PathBuf.join
    rw [if_neg hne]

/-- The exported root lies in no directory that the server could reach by a path of its own. -/
theorem parent_outside (h : srv.Plain t) {p : PathBuf}
    (hp : p = (srv.root.join []).parent.getD srv.root) (hl : Fs.Leads t p q) :
    ¬ srv.rootReal <+: q := by
  have hne : srv.root.names ≠ [] := by
    intro hnil
    have hres := h.exported.1.2
    rw [resolve_nil hnil] at hres
    exact h.proper (Except.ok.inj hres).symm
  have hparent : p = ⟨srv.root.names.dropLast, false⟩ := by
    rw [hp]
    unfold PathBuf.join PathBuf.parent
    rw [if_pos rfl, if_neg hne, Option.getD_some]
  obtain ⟨d, y, e, hnames, he, hself⟩ := Names.of_resolve h.exported.1.2 hne
  rintro ⟨rel, rfl⟩
  have hd : d = srv.rootReal ++ rel := by
    have hres := hl.2
    rw [hparent, hnames.resolve_parent] at hres
    exact Except.ok.inj hres
  -- the entry of the root would lie below the root, so it is no link
  subst hd
  have hlink : ∀ target, e.shape ≠ .symlink target := by
    rintro target hs
    refine h.noLinks (rel ++ [y]) target ?_
    rw [← List.append_assoc, Tree.shape_of_look he, hs]
  have hlen := congrArg List.length (hself hlink)
  rw [List.length_append, List.length_append, List.length_singleton] at hlen
  omega

/-- What the server makes of the path of something new. -/
theorem forNew_iff (h : srv.Plain t) :
    srv.ForNew t relative path q ↔ ∃ up x, normalizeRelativePath relative = .ok (up ++ [x]) ∧
      path = srv.root.join (up ++ [x]) ∧ q = srv.rootReal ++ up ∧ t.shape q ≠ none := by
  have hparent : ∀ up x, (srv.root.join (up ++ [x])).parent.getD srv.root
      = ⟨srv.root.names ++ up, false⟩ := fun up x => by
    unfold PathBuf.join PathBuf.parent
    rw [if_neg (by simp), if_neg (by simp), Option.getD_some, ← List.append_assoc,
      List.dropLast_concat]
  constructor
  · rintro ⟨⟨rel, hrel, rfl⟩, hnul, hres, hin⟩
    rcases List.eq_nil_or_concat rel with rfl | ⟨up, x, rfl⟩
    · exact absurd hin (h.parent_outside rfl ⟨hnul, hres⟩)
    · rw [List.concat_eq_append] at *
      rw [hparent] at hnul hres
      exact ⟨up, x, hrel, rfl, h.leads_parent.mp ⟨hnul, hres⟩⟩
  · rintro ⟨up, x, hrel, rfl, hq⟩
    have hleads := h.leads_parent.mpr hq
    refine ⟨⟨_, hrel, rfl⟩, ?_, ?_, hq.1 ▸ List.prefix_append _ _⟩
    · rw [hparent]
      exact hleads.1
    · rw [hparent]
      exact hleads.2

/-! ### The abstract tree -/

/-- The tree of files and directories that is exported. -/
def view (h : srv.Plain t) : FileTree Name UInt8 where
  node rel := (bodyAt t (srv.rootReal ++ rel)).bind nodeOf
  root := by
    have hdir := h.exported.2
    rw [shape_eq_map_bodyAt] at hdir
    rw [List.append_nil]
    cases hb : bodyAt t srv.rootReal with
    | none => rw [hb] at hdir; cases hdir
    | some b =>
      rw [hb] at hdir
      cases b with
      | dir size => rfl
      | file data => cases hdir
      | symlink target => cases hdir
  closed rel hne hex := by
    have hloc : srv.rootReal ++ rel ≠ [] := by simp [h.proper]
    have hexists : t.shape (srv.rootReal ++ rel) ≠ none := by
      rw [shape_eq_map_bodyAt]
      intro hnone
      rw [Option.map_eq_none_iff] at hnone
      rw [hnone] at hex
      exact hex rfl
    have hdir := Tree.shape_dropLast hloc hexists
    rw [List.dropLast_append_of_ne_nil hne, shape_eq_map_bodyAt] at hdir
    obtain ⟨b, hb, hs⟩ := Option.map_eq_some_iff.mp hdir
    rw [hb]
    cases b with
    | dir size => rfl
    | file data => cases hs
    | symlink target => cases hs

/-- The nodes of the file service are the bodies below the root. -/
theorem view_node (h : srv.Plain t) (rel : List Name) :
    h.view.node rel = (bodyAt t (srv.rootReal ++ rel)).bind nodeOf := rfl

/-- The file service has no node where nothing stands. -/
theorem node_eq_none_iff (h : srv.Plain t) :
    h.view.node rel = none ↔ t.shape (srv.rootReal ++ rel) = none := by
  have hlink := h.noLinks rel
  rw [view_node]
  rw [shape_eq_map_bodyAt] at hlink ⊢
  cases hb : bodyAt t (srv.rootReal ++ rel) with
  | none => simp
  | some b =>
    cases b with
    | file data => simp [nodeOf]
    | dir size => simp [nodeOf]
    | symlink target =>
      rw [hb] at hlink
      exact absurd rfl (hlink target)

/-- The file service has a directory where one stands. -/
theorem node_eq_dir_iff (h : srv.Plain t) :
    h.view.node rel = some .dir ↔ t.shape (srv.rootReal ++ rel) = some .dir := by
  rw [view_node, shape_eq_map_bodyAt]
  cases bodyAt t (srv.rootReal ++ rel) with
  | none => simp
  | some b => cases b <;> simp [nodeOf, Body.shape]

/-- The file service has a file where one with these contents stands. -/
theorem node_eq_file_iff (h : srv.Plain t) {data : List UInt8} :
    h.view.node rel = some (.file data) ↔ bodyAt t (srv.rootReal ++ rel) = some (.file data) := by
  rw [view_node]
  cases bodyAt t (srv.rootReal ++ rel) with
  | none => simp
  | some b => cases b <;> simp [nodeOf]

end Plain

end RpcServer

end Netfilum
