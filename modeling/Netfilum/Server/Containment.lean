import Netfilum.Server.Acting
import Netfilum.Server.Clearing

namespace Netfilum

open Posix Program Rust

/-!
# Which requests stay inside the exported root

A request stays contained when the tree is the same afterwards outside the subtree of the
exported root.  Requests that act on the *object* a path leads to are checked on that
object, and requests that add an entry are checked on the directory they add it to.  The
removals and the source of a rename are checked on the object but act on the *entry*,
which may be a link that lies outside.

* `contained_of_quiet`, `contained_createEntry`, … — what every other request does is contained.
* `Escapes` — the removals and renames whose entry lies outside the exported root, and the
  rename that empties a directory outside.
* `contained_iff` — a request is contained exactly when it does not escape.
-/

variable {srv : RpcServer} {os : Os} {t t' : Tree} {relative : String} {path : PathBuf}

/-- Staying inside the exported root, from `t` on. -/
abbrev Contained {ε α : Type} (srv : RpcServer) (x : EStateM ε Tree α) (t : Tree) : Prop :=
  Respects (SameOutside srv.rootReal) x t

namespace RpcServer

/-- Two steps are contained if both are. -/
theorem contained_bind {α β : Type} {x : ServerM α} {f : α → ServerM β}
    (hx : Contained srv x t) (hf : ∀ a t', x t = .ok a t' → Contained srv (f a) t') :
    Contained srv (x >>= f) t := by
  refine Respects.bind ?_ hx hf
  exact SameOutside.trans

/-- A quiet step is contained. -/
theorem contained_of_quiet {ε α : Type} {x : EStateM ε Tree α} (h : Quiet x) :
    Contained srv x t := h.respects (SameOutside.refl _) t

/-- A call that fails changes nothing. -/
theorem contained_call {p : PathBuf} {f : Tree → Except Errno Tree}
    (h : ∀ t', Fs.effect p f t = .ok () t' → SameOutside srv.rootReal t t') :
    Contained srv (Fs.effect p f) t :=
  .attempt (SameOutside.refl _) fun _ t' hok => h t' (attempt_of_ok hok)

/-! ### Acting on the object -/

/-- A path that is accepted leads into the exported root. -/
theorem exists_about (srv : RpcServer) (t : Tree) (relative : String) :
    ∃ q, srv.rootReal <+: q ∧ srv.About t relative q := by
  by_cases h : ∃ path q, srv.Existing t relative path q
  · obtain ⟨path, q, hex⟩ := h
    exact ⟨q, hex.within, fun path' q' hex' => (hex'.unique hex).2⟩
  · exact ⟨_, List.prefix_refl _, fun path' q' hex' => absurd ⟨path', q', hex'⟩ h⟩

/-- `write_file` is contained. -/
theorem contained_writeFile (offset : UInt64) (data : List UInt8) (toEof : Bool) :
    Contained srv (srv.writeFile os relative offset data toEof) t := by
  obtain ⟨q, hin, habout⟩ := srv.exists_about t relative
  exact SameBut.sameOutside hin (sameBut_writeFile habout offset data toEof)

/-- `set_len` is contained. -/
theorem contained_setLen (size : UInt64) (allocation : Bool) :
    Contained srv (srv.setLen os relative size allocation) t := by
  obtain ⟨q, hin, habout⟩ := srv.exists_about t relative
  exact SameBut.sameOutside hin (sameBut_setLen habout size allocation)

/-- `set_basic_info` is contained. -/
theorem contained_setBasicInfo (update : BasicInfoUpdate) :
    Contained srv (srv.setBasicInfo os relative update) t := by
  obtain ⟨q, hin, habout⟩ := srv.exists_about t relative
  exact SameBut.sameOutside hin (sameBut_setBasicInfo habout update)

/-! ### Adding an entry -/

/-- `create_entry` is contained. -/
theorem contained_createEntry (kind : EntryKind) :
    Contained srv (srv.createEntry os relative kind) t := by
  refine contained_bind (contained_of_quiet quiet_resolveForNewPath) fun p t1 hp => ?_
  obtain ⟨⟨q, hnew⟩, rfl⟩ := resolveForNewPath_eq_ok.mp hp
  cases kind with
  | file =>
    refine contained_bind (.mapError (contained_call fun t' hok => ?_)) fun _ t2 _ =>
      contained_of_quiet (quiet_attrForPath p)
    obtain ⟨-, d, x, hnames, -, -, rfl⟩ := Fs.createNew_eq_ok.mp hok
    exact (SameOutside.insert (hnew.within_entry hnames) t1 _ _).trans
      (.touch (hnew.within_dir hnames) _ os)
  | directory =>
    refine contained_bind (.mapError (contained_call fun t' hok => ?_)) fun _ t2 _ =>
      contained_of_quiet (quiet_attrForPath p)
    obtain ⟨-, d, x, hnames, -, rfl⟩ := Fs.createDir_eq_ok.mp hok
    exact (SameOutside.insert (hnew.within_entry hnames) t1 _ _).trans
      (.touch (hnew.within_dir hnames) _ os)

/-! ### Removing an entry -/

/-- `RemoveFile` takes away an entry that lies outside. -/
def RemovesFileOutside (srv : RpcServer) (os : Os) (t : Tree) (relative : String) : Prop :=
  ∃ path q d x e, srv.Existing t relative path q ∧ Names t path d x ∧
    t.look (d ++ [x]) = some e ∧ e.shape ≠ .dir ∧ path.trailing = false ∧
    Shows os srv.rootReal t d x

/-- `RemoveDir` takes away an empty directory that lies outside: only the exported root
    itself can be one. -/
def RemovesDirOutside (srv : RpcServer) (os : Os) (t : Tree) (relative : String) : Prop :=
  ∃ path q d x e, srv.Existing t relative path q ∧ Names t path d x ∧
    t.look (d ++ [x]) = some e ∧ e.shape = .dir ∧ t.children (d ++ [x]) = [] ∧
    Shows os srv.rootReal t d x

/-- `remove_file` is contained unless the entry it removes lies outside. -/
theorem removeFile_contained_iff :
    Contained srv (srv.removeFile os relative) t ↔ ¬ srv.RemovesFileOutside os t relative := by
  constructor
  · rintro hsame ⟨p, q, d, x, e, hex, hnames, he, hdir, htr, hshows⟩
    have hrun : srv.removeFile os relative t = .ok () ((t.prune (d ++ [x])).touch os d) :=
      removeFile_eq_ok.mpr ⟨p, q, d, x, e, hex, hnames, he, hdir, htr, rfl⟩
    unfold Contained Respects at hsame
    rw [hrun] at hsame
    exact (sameOutside_remove_iff he).mp hsame hshows
  · intro hno
    refine atomic_removeFile.respects (SameOutside.refl _) fun u t' hok => ?_
    obtain ⟨p, q, d, x, e, hex, hnames, he, hdir, htr, rfl⟩ := removeFile_eq_ok.mp hok
    exact (sameOutside_remove_iff he).mpr fun hshows =>
      hno ⟨p, q, d, x, e, hex, hnames, he, hdir, htr, hshows⟩

/-- `remove_dir` is contained unless the directory it removes lies outside. -/
theorem removeDir_contained_iff :
    Contained srv (srv.removeDir os relative) t ↔ ¬ srv.RemovesDirOutside os t relative := by
  constructor
  · rintro hsame ⟨p, q, d, x, e, hex, hnames, he, hdir, hempty, hshows⟩
    have hrun : srv.removeDir os relative t = .ok () ((t.prune (d ++ [x])).touch os d) :=
      removeDir_eq_ok.mpr ⟨p, q, d, x, e, hex, hnames, he, hdir, hempty, rfl⟩
    unfold Contained Respects at hsame
    rw [hrun] at hsame
    exact (sameOutside_remove_iff he).mp hsame hshows
  · intro hno
    refine atomic_removeDir.respects (SameOutside.refl _) fun u t' hok => ?_
    obtain ⟨p, q, d, x, e, hex, hnames, he, hdir, hempty, rfl⟩ := removeDir_eq_ok.mp hok
    exact (sameOutside_remove_iff he).mpr fun hshows =>
      hno ⟨p, q, d, x, e, hex, hnames, he, hdir, hempty, hshows⟩

/-! ### Renaming -/

/-- `Rename` takes away an entry that lies outside.  Its source path leads to an object
    inside, so the entry is a link; the target lies inside, is absent or may be replaced,
    and neither path passes through what is replaced. -/
def RenamesOutside (srv : RpcServer) (t : Tree) (from_ to_ : String) (replace : Bool) : Prop :=
  ∃ fromPath toPath q q' d x d' x',
    srv.Existing t from_ fromPath q ∧ srv.ForNew t to_ toPath q' ∧ toPath.hasNul = false ∧
    Names t fromPath d x ∧ Names t toPath d' x' ∧ ¬ srv.rootReal <+: d ++ [x] ∧
    fromPath.trailing = false ∧ toPath.trailing = false ∧
    ((¬ ∃ r, Fs.Leads t toPath r) ∨
      replace = true ∧ Names (t.prune (d' ++ [x'])) fromPath d x ∧
        Names (t.prune (d' ++ [x'])) toPath d' x')

/-- The entry that a source path names is where the path leads, unless it is a link. -/
theorem Existing.link_of_outside {q d : Loc} {x : Name} (h : srv.Existing t relative path q)
    (hnames : Names t path d x) (hout : ¬ srv.rootReal <+: d ++ [x]) :
    ∃ e, t.look (d ++ [x]) = some e ∧ ∃ tgt, e.shape = .symlink tgt := by
  obtain ⟨e, he, hq⟩ := hnames.entry_of_resolve h.resolves
  refine ⟨e, he, ?_⟩
  by_contra hlink
  have heq := hq fun tgt hs => hlink ⟨tgt, hs⟩
  exact hout (heq ▸ h.within)

/-- Once the target is cleared, a link that lies outside can be moved onto it. -/
theorem renamePlan_of_outside {replace : Bool} {fromPath toPath : PathBuf} {q' d d' : Loc}
    {x x' : Name} {t₁ : Tree} {e : Entry} {tgt : Target} (hto : srv.ForNew t relative toPath q')
    (hnul : toPath.hasNul = false) (hcleared : Cleared os t toPath replace t₁)
    (hsrc : Names t₁ fromPath d x) (hdst : Names t₁ toPath d' x')
    (hout : ¬ srv.rootReal <+: d ++ [x]) (he : t₁.look (d ++ [x]) = some e)
    (hlink : e.shape = .symlink tgt) (hftr : fromPath.trailing = false)
    (httr : toPath.trailing = false) :
    Fs.renamePlan fromPath toPath t₁ = .ok (d ++ [x], d' ++ [x']) ∧
      ¬ d ++ [x] <+: d' ++ [x'] ∧ ¬ d' ++ [x'] <+: d ++ [x] := by
  have hdst₀ := hdst.mono hcleared.fewer
  have hin := hto.within_entry hdst₀
  have hshape : t₁.shape (d ++ [x]) = some (.symlink tgt) := by
    rw [Tree.shape_of_look he, hlink]
  -- the link is outside, so it is not above the target, nor below it
  have hsd : ¬ d ++ [x] <+: d' ++ [x'] := by
    intro h
    rcases List.prefix_concat_iff.mp h with h | h
    · exact hout (h ▸ hin)
    · -- a link would lie above the directory of the target
      rcases eq_or_ne (d ++ [x]) d' with heq | hne
      · have hdir := hdst.dir
        rw [← heq, hshape] at hdir
        cases hdir
      · have hdir := Tree.shape_above h hne (by rw [hdst.dir]; simp)
        rw [hshape] at hdir
        cases hdir
  have hds : ¬ d' ++ [x'] <+: d ++ [x] := fun h => hout (hin.trans h)
  have hfree : Fs.Free t₁ e (d' ++ [x']) := by
    intro e' he'
    rw [if_neg (by rw [hlink]; simp)]
    intro hdir
    -- what could not be replaced was removed, or was never there
    cases hcleared with
    | kept h => exact h ⟨_, hnul, hdst.resolve_entry he' (.inl hdir)⟩
    | removed _ _ hnames _ _ =>
      obtain ⟨rfl, rfl⟩ := hnames.unique hdst₀
      rw [Tree.look_touch_of_ne (by simp), Tree.look_prune_below (by simp) (List.prefix_refl _)]
        at he'
      cases he'
  refine ⟨Fs.renamePlan_eq_ok.mpr ⟨d, x, hsrc, d', x', hdst, e, he, ?_,
    fun _ => ⟨hsd, hds, hfree⟩, rfl, rfl⟩, hsd, hds⟩
  rw [hftr, httr]
  simp

/-- A rename whose source lies outside takes it away from there. -/
theorem RenamesOutside.not_contained {from_ to_ : String} {replace : Bool}
    (h : srv.RenamesOutside t from_ to_ replace) :
    ¬ Contained srv (srv.rename os from_ to_ replace) t := by
  intro hsame
  obtain ⟨fp, tp, q, q', d, x, d', x', hfrom, hto, hnul, hsrc, hdst, hout, hftr, httr, hway⟩ := h
  obtain ⟨e, he, tgt, hlink⟩ := hfrom.link_of_outside hsrc hout
  have hkeep : replace = false → ¬ ∃ r, Fs.Leads t tp r := by
    intro hr
    rcases hway with h | ⟨h, -, -⟩
    · exact h
    · rw [hr] at h; cases h
  -- the step before the move: a target that exists is removed, and the paths still name
  -- the entries they named
  obtain ⟨t₁, hcleared, hsrc₁, hdst₁⟩ : ∃ t₁, Cleared os t tp replace t₁ ∧
      Names t₁ fp d x ∧ Names t₁ tp d' x' := by
    by_cases hl : ∃ r, Fs.Leads t tp r
    · rcases hway with h | ⟨hr, hs, hd⟩
      · exact absurd hl h
      · -- the new path does not pass through its own target
        have hway : ¬ Severs t tp (d' ++ [x']) := by
          rintro ⟨v, hv, hdv, -⟩
          exact ((names_prune_iff (by simp)).mp hd).2 (approach_above hv hdv (by simp))
        exact ⟨_, .removed hr hl hdst (by simp [httr]) hway, (names_touch os d').mpr hs,
          (names_touch os d').mpr hd⟩
    · exact ⟨t, .kept hl, hsrc, hdst⟩
  have he₁ : t₁.look (d ++ [x]) = some e := by
    rw [hcleared.sameOutside hto _ hout, he]
  obtain ⟨hplan, hsd, hds⟩ :=
    renamePlan_of_outside hto hnul hcleared hsrc₁ hdst₁ hout he₁ hlink hftr httr
  have hmove : io (Fs.rename os fp tp) t₁ = .ok () (Fs.renamed os (d ++ [x]) (d' ++ [x']) t₁) :=
    io_eq_ok.mpr (Fs.rename_eq_ok.mpr ⟨hfrom.nul, hnul, _, _, hplan, rfl⟩)
  have hgone : (Fs.renamed os (d ++ [x]) (d' ++ [x']) t₁).look (d ++ [x]) = none := by
    refine look_renamed_source (by simp) (by simp) ?_ hsd hds ?_
    · rw [List.dropLast_concat]
      exact hdst₁.dir
    · rw [List.dropLast_concat]
      intro heq
      exact hout (heq ▸ hto.within_dir hdst)
  unfold Contained Respects at hsame
  rw [rename_apply os hfrom hto hkeep, bind_of_ok hcleared.run, hmove] at hsame
  -- the entry outside was there before, and is gone after
  have := hsame _ hout
  rw [final_ok, hgone, he] at this
  cases this

/-- A move that the server carries out and that is no escape moves an entry out of a
    directory within the root. -/
theorem within_of_renamePlan {from_ to_ : String} {replace : Bool} {fp tp : PathBuf}
    {q q' d d' : Loc} {x x' : Name} {t₁ : Tree} {e : Entry}
    (hno : ¬ srv.RenamesOutside t from_ to_ replace) (hfrom : srv.Existing t from_ fp q)
    (hto : srv.ForNew t to_ tp q') (hnul : tp.hasNul = false)
    (hcleared : Cleared os t tp replace t₁)
    (hsrc : Names t₁ fp d x) (hdst : Names t₁ tp d' x') (he : t₁.look (d ++ [x]) = some e)
    (htr : ¬ (e.shape ≠ .dir ∧ (fp.trailing = true ∨ tp.trailing = true)))
    (hsd : ¬ d ++ [x] <+: d' ++ [x']) : srv.rootReal <+: d := by
  by_contra hout
  have hsrc₀ := hsrc.mono hcleared.fewer
  have hdst₀ := hdst.mono hcleared.fewer
  have hentry : ¬ srv.rootReal <+: d ++ [x] := by
    intro h
    rcases List.prefix_concat_iff.mp h with h | h
    · -- the root itself would have to move below itself
      exact hsd (h ▸ (hto.within_dir hdst₀).trans (List.prefix_append d' [x']))
    · exact hout h
  obtain ⟨e', he', tgt, hlink⟩ := hfrom.link_of_outside hsrc₀ hentry
  rw [hcleared.sameOutside hto _ hentry, he'] at he
  cases he
  have hnotr : fp.trailing = false ∧ tp.trailing = false := by
    have hne : e.shape ≠ .dir := by rw [hlink]; simp
    simpa [hne] using htr
  refine hno ⟨fp, tp, q, q', d, x, d', x', hfrom, hto, hnul, hsrc₀, hdst₀, hentry, hnotr.1,
    hnotr.2, ?_⟩
  cases hcleared with
  | kept h => exact .inl h
  | @removed d₁ x₁ hr hl hnames _ _ =>
    obtain ⟨rfl, rfl⟩ := hnames.unique hdst₀
    exact .inr ⟨hr, (names_touch os d₁).mp hsrc, (names_touch os d₁).mp hdst⟩

/-- `Rename` empties a directory that lies outside.  Its new path names the exported root,
    which is a link that leads there. -/
def EmptiesOutside (srv : RpcServer) (os : Os) (t : Tree) (from_ to_ : String)
    (replace : Bool) : Prop :=
  ∃ fromPath toPath q q' v, srv.Existing t from_ fromPath q ∧ srv.ForNew t to_ toPath q' ∧
    replace = true ∧ Fs.Empties t toPath v ∧ Fs.ShowsBelow os srv.rootReal t v

/-- A directory that lies outside is emptied, and stays. -/
theorem ForNew.emptied {q v : Loc} (h : srv.ForNew t relative path q)
    (hempties : Fs.Empties t path v) (hout : ¬ srv.rootReal <+: v) : Emptied t path v := by
  refine ⟨hempties, hempties.entry_or_remains.resolve_left ?_⟩
  rintro ⟨d, x, hnames, rfl, -⟩
  exact hout (h.within_entry hnames)

/-- A rename that empties a directory outside is not contained. -/
theorem EmptiesOutside.not_contained {from_ to_ : String} {replace : Bool}
    (h : srv.EmptiesOutside os t from_ to_ replace) :
    ¬ Contained srv (srv.rename os from_ to_ replace) t := by
  intro hsame
  obtain ⟨fp, tp, q, q', v, hfrom, hto, rfl, hempties, hshows⟩ := h
  obtain ⟨e, hrun⟩ := (hto.emptied hempties hshows.1).rename os hfrom hto
  unfold Contained Respects at hsame
  rw [hrun] at hsame
  exact Fs.sameOutside_emptied_iff.mp hsame hshows

/-- `rename` is contained unless it moves an entry that lies outside, or empties a directory
    there. -/
theorem rename_contained_iff {from_ to_ : String} {replace : Bool} :
    Contained srv (srv.rename os from_ to_ replace) t ↔
      ¬ (srv.RenamesOutside t from_ to_ replace ∨ srv.EmptiesOutside os t from_ to_ replace) := by
  constructor
  · rintro hsame (hescape | hescape)
    · exact hescape.not_contained hsame
    · exact hescape.not_contained hsame
  · intro hno
    obtain ⟨hmoves, hempties⟩ := not_or.mp hno
    refine rename_induct (SameOutside srv.rootReal t) (.refl _ t) ?_ ?_ ?_
    · intro fp tp q q' t₁ hfrom hto hcleared
      exact hcleared.sameOutside hto
    · intro fp tp q q' r hfrom hto hreplace hemptied
      exact Fs.sameOutside_emptied_iff.mpr fun hshows =>
        hempties ⟨fp, tp, q, q', r, hfrom, hto, hreplace, hemptied.empties, hshows⟩
    · intro fp tp t₁ src dst hplans hsame
      obtain ⟨q, hfrom⟩ := hplans.existing
      obtain ⟨q', hto⟩ := hplans.forNew
      obtain ⟨d, x, hsrc, d', x', hdst, e, he, htr, hapart, rfl, rfl⟩ :=
        Fs.renamePlan_eq_ok.mp hplans.plan
      refine hsame.trans ?_
      by_cases heq : d ++ [x] = d' ++ [x']
      · unfold Fs.renamed
        rw [if_pos heq]
        exact .refl _ t₁
      · obtain ⟨hsd, -, -⟩ := hapart heq
        have hdir' := hto.within_dir (hdst.mono hplans.cleared.fewer)
        have hdir := within_of_renamePlan hmoves hfrom hto hplans.nul hplans.cleared hsrc hdst he
          htr hsd
        exact .renamed (by rwa [List.dropLast_concat]) (by rwa [List.dropLast_concat]) t₁ os

/-! ### All requests -/

/-- The requests that reach outside the exported root. -/
def Escapes (srv : RpcServer) (os : Os) (t : Tree) : Request → Prop
  | .removeFile path => srv.RemovesFileOutside os t path
  | .removeDir path => srv.RemovesDirOutside os t path
  | .rename path newPath replaceIfExists => srv.RenamesOutside t path newPath replaceIfExists ∨
      srv.EmptiesOutside os t path newPath replaceIfExists
  | _ => False

/-- What is returned at the end does not matter. -/
theorem contained_then {α : Type} {x : ServerM Unit} {a : α} :
    Contained srv (do x; return a) t ↔ Contained srv x t := by
  unfold Contained Respects
  rw [final_then]

/-- **Containment.**  A request changes nothing outside the exported root exactly when it
    does not remove or rename an entry that lies outside. -/
theorem contained_iff (srv : RpcServer) (os : Os) (t : Tree) (request : Request) :
    SameOutside srv.rootReal t (final (srv.dispatch os request t)) ↔
      ¬ srv.Escapes os t request := by
  show Contained srv (srv.dispatch os request) t ↔ _
  cases request with
  | removeFile path => exact contained_then.trans removeFile_contained_iff
  | removeDir path => exact contained_then.trans removeDir_contained_iff
  | rename path newPath replace => exact contained_then.trans rename_contained_iff
  | stat path | «open» path =>
    exact iff_of_true (contained_of_quiet (.map quiet_statPath)) id
  | create path kind attributes size =>
    exact iff_of_true (.map (contained_createEntry kind)) id
  | readDir path => exact iff_of_true (contained_of_quiet (.map quiet_readDir)) id
  | read path offset length =>
    exact iff_of_true (contained_of_quiet (.map (quiet_readFile offset length))) id
  | write path offset data toEof =>
    exact iff_of_true (contained_writeFile offset data toEof) id
  | canDelete path kind =>
    exact iff_of_true (contained_then.mpr (contained_of_quiet (quiet_canDelete kind))) id
  | setLen path size allocation => exact iff_of_true (.map (contained_setLen size allocation)) id
  | flush path => exact iff_of_true (contained_then.mpr (contained_of_quiet (quiet_flush path))) id
  | setBasicInfo path update => exact iff_of_true (.map (contained_setBasicInfo update)) id
  | getVolumeInfo => exact iff_of_true (contained_of_quiet (.map quiet_volumeInfo)) id

/-! ### A link that lies outside -/

/-- In the exported `/r`, the link `a` leads to `/out`; there the link `b` leads back to the
    file `/r/f`. -/
def treeWithDetour : Tree where
  entries := [
    oldEntry [] 0 (.dir 0),
    oldEntry ["r"] 1 (.dir 0),
    oldEntry ["r", "a"] 2 (.symlink ⟨true, [.name (Utf8.encode "out")]⟩),
    oldEntry ["r", "f"] 3 (.file [1]),
    oldEntry ["out"] 4 (.dir 0),
    oldEntry ["out", "b"] 5 (.symlink ⟨true, [.name (Utf8.encode "r"), .name (Utf8.encode "f")]⟩)]
  next := 6
  locs_nodup := by decide
  inos_nodup := by decide
  inos_lt := by decide
  closed := by decide
  root := by decide

/-- `RemoveFile "a/b"` is accepted, since `a/b` leads to `/r/f`, and removes the link
    `/out/b`. -/
theorem detour_not_contained :
    ¬ SameOutside serverAtR.rootReal treeWithDetour
      (final (serverAtR.dispatch (.atTime ⟨1, 0⟩) (.removeFile "a/b") treeWithDetour)) := by
  intro hsame
  have hbefore : (treeWithDetour.look (["out", "b"].map Utf8.encode)).isSome = true := by decide
  have hafter : (final (serverAtR.dispatch (.atTime ⟨1, 0⟩) (.removeFile "a/b")
      treeWithDetour)).look (["out", "b"].map Utf8.encode) = none := by decide
  have := hsame (["out", "b"].map Utf8.encode) (by decide)
  rw [← this, hafter] at hbefore
  cases hbefore

end RpcServer

end Netfilum
