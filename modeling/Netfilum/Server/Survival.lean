import Mathlib.Logic.Relation
import Netfilum.Server.Takes

namespace Netfilum

open Posix Program Rust

/-!
# The exported root survives

Which requests can take the exported root away, and what a run without them keeps.

* `Uproots` — the request takes an entry that the path of the exported root passes through;
  `uproots_iff` — without links in that path only `RemoveDir` of the empty root does.
* `exported_of_reaches` — in every run without such a request the exported root survives.
-/

variable {srv : RpcServer} {os : Os} {t t' : Tree} {relative : String} {path : PathBuf}
  {q v : Loc}

namespace RpcServer

/-! ### The exported root -/

/-- The exported root exists, is a directory, and canonicalises to what it did at first. -/
def Exported (srv : RpcServer) (t : Tree) : Prop :=
  Fs.Leads t srv.root srv.rootReal ∧ t.shape srv.rootReal = some .dir

/-- The request takes an entry that the path of the exported root passes through. -/
def Uproots (srv : RpcServer) (os : Os) (t : Tree) (request : Request) : Prop :=
  ∃ v ∈ passes t srv.root, srv.Takes os t v request

/-- The exported root is still there where its path looks as it did. -/
theorem Exported.of_keeps (h : srv.Exported t) (hkeeps : Keeps (passes t srv.root) t t') :
    srv.Exported t' := by
  obtain ⟨⟨hnul, hres⟩, hdir⟩ := h
  refine ⟨⟨hnul, ?_⟩, ?_⟩
  · rw [hkeeps.resolve.1, hres]
  · rcases eq_or_ne srv.rootReal [] with hroot | hroot
    · rw [hroot]
      exact Tree.shape_root
    · rw [hkeeps.shape (mem_passes hres hroot), hdir]

/-- A request that takes nothing from the root's path leaves the export in place. -/
theorem exported_step (h : srv.Exported t) {request : Request}
    (hno : ¬ srv.Uproots os t request) : srv.Exported (final (srv.dispatch os request t)) :=
  h.of_keeps <| keeps_dispatch (route_passes h.1.2) request fun v hv htakes =>
    hno ⟨v, hv, htakes⟩

/-- `Stat` of the empty path asks for the exported root. -/
theorem stat_root (h : srv.Exported t) :
    ∃ attr, srv.dispatch os (.stat "") t = .ok (.attr attr) t := by
  obtain ⟨⟨hnul, hres⟩, hdir⟩ := h
  have hjoins : srv.Joins "" (srv.root.join []) := ⟨[], by decide, rfl⟩
  have hex : srv.Existing t "" (srv.root.join []) srv.rootReal :=
    ⟨hjoins, hnul, resolve_join_nil hres hdir, List.prefix_refl _⟩
  obtain ⟨e, he, -⟩ := Tree.shape_eq_some_iff.mp hdir
  have hattr : attrForPath (srv.root.join []) t = .ok (attrOf e) t :=
    attrForPath_eq_ok.mpr ⟨⟨_, e, ⟨hex.nul, hex.resolves⟩, he, rfl⟩, rfl⟩
  refine ⟨attrOf e, map_eq_ok.mpr ⟨attrOf e, ?_, rfl⟩⟩
  exact bind_eq_ok.mpr ⟨_, t, resolveExisting_eq_ok.mpr ⟨⟨_, hex⟩, rfl⟩, hattr⟩

/-- One request that leaves the path of the exported root in place. -/
def SafeStep (srv : RpcServer) (t t' : Tree) : Prop :=
  ∃ os request, ¬ srv.Uproots os t request ∧ final (srv.dispatch os request t) = t'

/-- **The export keeps its root** in every run none of whose requests takes an entry that
    the root's path passes through. -/
theorem exported_of_reaches (srv : RpcServer) (t t' : Tree) (hstart : srv.Exported t)
    (hrun : Relation.ReflTransGen srv.SafeStep t t') :
    srv.Exported t' ∧ ∀ os, ∃ attr, srv.dispatch os (.stat "") t' = .ok (.attr attr) t' := by
  suffices h : srv.Exported t' from ⟨h, fun _ => stat_root h⟩
  induction hrun with
  | refl => exact hstart
  | tail _ hstep ih =>
    obtain ⟨os, request, hno, rfl⟩ := hstep
    exact exported_step ih hno

/-! ### A root without links in its path -/

/-- An existing path that names a directory on the way to the root names the root. -/
theorem Existing.entry_eq_root {d : Loc} {x : Name} (hex : srv.Existing t relative path q)
    (hnames : Names t path d x) (hs : t.shape (d ++ [x]) = some .dir)
    (hpre : d ++ [x] <+: srv.rootReal) : d ++ [x] = srv.rootReal := by
  obtain ⟨e, he, hq⟩ := hnames.entry_of_resolve hex.resolves
  rw [Tree.shape_of_look he] at hs
  -- a directory is what its path leads to, and that lies within the root
  have hin := hex.within
  rw [hq (by rw [Option.some.inj hs]; simp)] at hin
  exact hpre.eq_of_length (Nat.le_antisymm hpre.length_le hin.length_le)

/-- In an empty root only the empty path exists. -/
theorem Existing.normalize_of_empty (hex : srv.Existing t relative path q)
    (hdir : t.shape srv.rootReal = some .dir) (hplain : srv.root.names = srv.rootReal)
    (hempty : t.children srv.rootReal = []) : normalizeRelativePath relative = .ok [] := by
  obtain ⟨rel, hrel, rfl⟩ := hex.joins
  cases rel with
  | nil => exact hrel
  | cons r rest =>
    have hgone : resolve t ⟨srv.rootReal ++ r :: rest, false⟩ = .error .ENOENT :=
      resolve_empty hdir hempty
    have hres := hex.resolves
    unfold PathBuf.join at hres
    rw [if_neg (by simp), hplain, hgone] at hres
    cases hres

/-- What a new path names lies strictly below the root. -/
theorem ForNew.ne_above {tp : PathBuf} {q' d : Loc} {x : Name} (hto : srv.ForNew t relative tp q')
    (hnames : Names t tp d x) (hpre : v <+: srv.rootReal) : v ≠ d ++ [x] := by
  rintro rfl
  exact not_concat_prefix d x (hpre.trans (hto.within_dir hnames))

/-- Only the path of the root itself is spelled with a trailing slash. -/
theorem ForNew.resolve_trailing {tp : PathBuf} {q' r : Loc} (hto : srv.ForNew t relative tp q')
    (htr : tp.trailing = true) (hres : resolve t srv.root = .ok r) (hdir : t.shape r = some .dir) :
    resolve t tp = .ok r := by
  obtain ⟨rel, -, rfl⟩ := hto.joins
  obtain rfl : rel = [] := by
    by_contra hne
    unfold PathBuf.join at htr
    rw [if_neg hne] at htr
    cases htr
  exact resolve_join_nil hres hdir

/-- A plain directory is taken only by removing it while it is empty. -/
theorem uproots_iff (h : srv.Exported t) (hroot : srv.rootReal ≠ [])
    (hplain : srv.root.names = srv.rootReal) {request : Request} :
    srv.Uproots os t request ↔ ∃ relative, request = .removeDir relative ∧
      normalizeRelativePath relative = .ok [] ∧ t.children srv.rootReal = [] := by
  obtain ⟨⟨hnul, hres⟩, hdir⟩ := h
  constructor
  · rintro ⟨v, hv, htakes⟩
    -- without links the path only passes through directories on the way to the root
    have hpre : v <+: srv.rootReal := by
      rw [← hplain]
      exact prefix_of_mem_passes (by rw [hplain, hdir]) v hv
    have hvdir : t.shape v = some .dir := by
      rcases eq_or_ne v srv.rootReal with rfl | hne
      · exact hdir
      · exact Tree.shape_above hpre hne (by rw [hdir]; simp)
    cases request with
    | removeFile relative =>
      obtain ⟨p, q, d, x, e, -, -, he, hne, -, rfl⟩ := htakes.resolve_right id
      rw [Tree.shape_of_look he] at hvdir
      exact absurd (Option.some.inj hvdir) hne
    | removeDir relative =>
      obtain ⟨p, q, d, x, e, hex, hnames, he, hs, hempty, rfl⟩ := htakes.resolve_right id
      rw [hex.entry_eq_root hnames hvdir hpre] at hempty
      exact ⟨relative, rfl, hex.normalize_of_empty hdir hplain hempty, hempty⟩
    | rename from_ to_ replace =>
      rcases htakes with ⟨fp, tp, q, q', hfrom, hto, hclears⟩ | hmoves
      · cases hclears with
        | entry _ _ hnames _ _ => exact absurd rfl (hto.ne_above hnames hpre)
        | below _ hempties hv hne =>
          -- what is emptied is the target of a link, or strictly below the root
          rcases hempties.named with htr | hnil | ⟨d, x, hnames, heq⟩
          · have hroot := hto.resolve_trailing htr hres hdir
            rw [hempties.leads.unique ⟨hempties.leads.1, hroot⟩] at hv hne
            exact absurd (hpre.eq_of_length_le hv.length_le) hne
          · exact absurd (hto.root_of_nil hnil) hroot
          · exact absurd heq (hto.ne_above hnames (hv.trans hpre))
      obtain ⟨fp, tp, t₁, src, dst, ⟨⟨q, hfrom⟩, ⟨q', hto⟩, -, hcleared, hplan⟩, hne, heq⟩ := hmoves
      obtain ⟨d, x, hsrc, d', x', hdst, e, he, -, hapart, rfl, rfl⟩ :=
        Fs.renamePlan_eq_ok.mp hplan
      have hsrc₀ := hsrc.mono hcleared.fewer
      have hdst₀ := hdst.mono hcleared.fewer
      rcases heq with rfl | rfl
      · -- the root would have to move below itself
        have hself := hfrom.entry_eq_root hsrc₀ hvdir hpre
        exact absurd (hself ▸ hto.within_entry hdst₀) (hapart hne).1
      · exact absurd rfl (hto.ne_above hdst₀ hpre)
    | _ => exact htakes.elim False.elim False.elim
  · rintro ⟨relative, rfl, hrel, hempty⟩
    have hex : srv.Existing t relative (srv.root.join []) srv.rootReal :=
      ⟨⟨[], hrel, rfl⟩, hnul, resolve_join_nil hres hdir, List.prefix_refl _⟩
    obtain ⟨d, x, heq⟩ : ∃ d x, srv.rootReal = d ++ [x] :=
      ⟨_, _, (List.dropLast_concat_getLast hroot).symm⟩
    have hn : Names t (srv.root.join []) d x :=
      names_canonical (hplain.trans heq) (by rw [← heq, hdir]; simp)
    obtain ⟨e, he, hs⟩ := Tree.shape_eq_some_iff.mp hdir
    rw [heq] at he hempty
    exact ⟨srv.rootReal, mem_passes hres hroot, .inl ⟨_, _, d, x, e, hex, hn, he, hs, hempty, heq⟩⟩

/-! ### The empty root -/

/-- The exported directory `/r` is empty. -/
def emptyTree : Tree where
  entries := [oldEntry [] 0 (.dir 0), oldEntry ["r"] 1 (.dir 0)]
  next := 2
  locs_nodup := by decide
  inos_nodup := by decide
  inos_lt := by decide
  closed := by decide
  root := by decide

/-- The empty root is exported. -/
theorem emptyTree_exported : serverAtR.Exported emptyTree :=
  ⟨⟨by decide, by decide⟩, by decide⟩

/-- The root with one file is exported. -/
theorem treeWithFile_exported : serverAtR.Exported treeWithFile :=
  ⟨⟨by decide, by decide⟩, by decide⟩

/-- `f` is renamed to `g`. -/
def afterRename : Tree :=
  final (serverAtR.dispatch (.atTime ⟨1, 0⟩) (.rename "f" "g" false) treeWithFile)

/-- Renaming the file leaves the root. -/
theorem rename_not_uproots :
    ¬ serverAtR.Uproots (.atTime ⟨1, 0⟩) treeWithFile (.rename "f" "g" false) := by
  rw [uproots_iff treeWithFile_exported (by decide) rfl]
  rintro ⟨_, hrequest, -⟩
  cases hrequest

/-- The root is not removed, as it is not empty. -/
theorem removeDir_not_uproots :
    ¬ serverAtR.Uproots (.atTime ⟨2, 0⟩) afterRename (.removeDir "") := by
  have hexported : serverAtR.Exported afterRename :=
    exported_step treeWithFile_exported rename_not_uproots
  have hchildren : afterRename.children serverAtR.rootReal ≠ [] := by decide
  rw [uproots_iff hexported (by decide) rfl]
  rintro ⟨_, -, -, hempty⟩
  exact hchildren hempty

/-- The export survives a rename in its root, and then an attempt to remove the root. -/
theorem exported_of_reaches_rename :
    serverAtR.Exported
      (final (serverAtR.dispatch (.atTime ⟨2, 0⟩) (.removeDir "") afterRename)) :=
  (exported_of_reaches serverAtR _ _ treeWithFile_exported
    (.tail (.single ⟨_, _, rename_not_uproots, rfl⟩) ⟨_, _, removeDir_not_uproots, rfl⟩)).1

/-- `RemoveDir ""` is answered and removes the empty root, after which the empty path is not
    found. -/
theorem emptyTree_loses_root :
    serverAtR.Exported emptyTree ∧
      outcome (serverAtR.dispatch (.atTime ⟨1, 0⟩) (.removeDir "") emptyTree) = .ok .empty ∧
      ¬ serverAtR.Exported
        (final (serverAtR.dispatch (.atTime ⟨1, 0⟩) (.removeDir "") emptyTree)) := by
  refine ⟨emptyTree_exported, by decide, fun h => ?_⟩
  have hgone : (final (serverAtR.dispatch (.atTime ⟨1, 0⟩) (.removeDir "") emptyTree)).shape
      serverAtR.rootReal = none := by decide
  have hdir := h.2
  rw [hgone] at hdir
  cases hdir

end RpcServer

end Netfilum
