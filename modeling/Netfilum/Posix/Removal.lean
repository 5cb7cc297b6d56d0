import Netfilum.Posix.Effects

namespace Posix

open Program Rust

/-!
# Removing a directory with everything in it

`remove_dir_all` empties the directory that its path leads to, and then walks the path once
more to remove the directory itself.

* `Fs.Empties` — the directory that a call empties; `emptied` leaves everything else alone.
* `Severs` — the way to the path's entry leads through what the call removes.
* `Remains` — the entry is the root directory, or a link that a trailing slash looks behind.
* `removeDirAll_of_entry`, `removeDirAll_of_remains` — the entry goes with all its contents
  if neither holds; otherwise the contents go and the entry stays.
-/

variable {os : Os} {t t' : Tree} {p : PathBuf} {d q r v : Loc} {x : Name} {V : List Loc}

/-- The way to the entry that the path names leads through something below `q`. -/
def Severs (t : Tree) (p : PathBuf) (q : Loc) : Prop := ∃ v ∈ approach t p, q <+: v ∧ v ≠ q

/-- The path names no directory that could go: it has no names, or it names a link and asks
    for the directory behind. -/
def Remains (t : Tree) (p : PathBuf) : Prop :=
  p.names = [] ∨ p.trailing = true ∧ ∃ d x, Names t p d x ∧ t.shape (d ++ [x]) ≠ some .dir

/-- Nothing is below a file or a link, and nothing below a directory without children. -/
theorem look_below_of_childless (h : t.shape v = some .dir → t.children v = []) {q : Loc}
    (hq : v <+: q) (hne : q ≠ v) : t.look q = none := by
  by_cases hdir : t.shape v = some .dir
  · obtain ⟨r, rfl⟩ := hq
    obtain ⟨y, r, rfl⟩ := List.exists_cons_of_ne_nil (l := r) (by simpa using hne)
    have hchild := Tree.children_eq_nil_iff.mp (h hdir) y
    exact Tree.look_below_none ⟨r, by simp⟩ hchild
  · exact Tree.look_below_leaf hq (Ne.symm hne) hdir

/-- Only what lies in a directory can sever the way to a path. -/
theorem not_severs_of_leaf (hnames : Names t p d x) (h : t.shape q ≠ some .dir) :
    ¬ Severs t p q := by
  rintro ⟨v, hv, hqv, hne⟩
  obtain ⟨n, hn⟩ := hnames.walks
  refine (route_visits hn).exist v hv (Tree.shape_eq_none_iff.mpr ?_)
  exact Tree.look_below_leaf hqv (Ne.symm hne) h

namespace Fs

/-! ### The emptied directory -/

/-- Emptying a directory makes no difference outside. -/
theorem look_emptied_of_not_below (h : ¬ q <+: v) : (emptied os q t).look v = t.look v := by
  have hne : v ≠ q := fun heq => h (heq ▸ List.prefix_refl v)
  unfold emptied
  split
  · rfl
  · rw [Tree.look_touch_of_ne hne, Tree.look_clear_of_not_below fun hb => h hb.1]

/-- Strictly below the directory there is no shape. -/
theorem shape_emptied (os : Os) (q v : Loc) :
    (emptied os q t).shape v = if q <+: v ∧ v ≠ q then none else t.shape v := by
  unfold emptied
  split
  · rename_i hempty
    split
    · rename_i h
      exact Tree.shape_eq_none_iff.mpr (look_below_of_childless (fun _ => hempty) h.1 h.2)
    · rfl
  · rw [Tree.shape_touch, Tree.shape_clear]

/-- What is not strictly below keeps its shape. -/
theorem shape_emptied_of_not_below (h : ¬ (q <+: v ∧ v ≠ q)) :
    (emptied os q t).shape v = t.shape v := by
  rw [shape_emptied, if_neg h]

/-- What lies below an emptied directory is gone. -/
theorem look_emptied_below (h : q <+: v) (hne : v ≠ q) : (emptied os q t).look v = none := by
  rw [← Tree.shape_eq_none_iff, shape_emptied, if_pos ⟨h, hne⟩]

/-- An emptied tree has no more in it than before. -/
theorem fewer_emptied (os : Os) (q : Loc) : Fewer (emptied os q t).shape t.shape := by
  intro v s h
  rw [shape_emptied] at h
  split at h
  · cases h
  · exact h

/-- An emptied directory has no children. -/
theorem children_emptied (os : Os) (q : Loc) : (emptied os q t).children q = [] :=
  Tree.children_eq_nil_iff.mpr fun y =>
    look_emptied_below (List.prefix_append q [y]) (by simp)

/-- What is left is where it was, unless it lies below the directory. -/
theorem tag_emptied (h : q <+: v → v = q) : (emptied os q t).tag v = t.tag v := by
  unfold emptied
  split
  · rfl
  · rw [Tree.tag_touch]
    unfold Tree.tag
    rw [Tree.look_clear_of_not_below fun hb => hb.2 (h hb.1)]

/-- A path names what it named before, unless its way is severed. -/
theorem names_emptied_iff :
    Names (emptied os q t) p d x ↔ Names t p d x ∧ ¬ Severs t p q := by
  rw [names_fewer_iff (fewer_emptied os q)]
  refine and_congr_right fun h => ⟨?_, fun hno v hv => ?_⟩
  · rintro hexist ⟨v, hv, hqv, hne⟩
    exact hexist v hv (Tree.shape_eq_none_iff.mpr (look_emptied_below hqv hne))
  · obtain ⟨n, hn⟩ := h.walks
    rw [shape_emptied_of_not_below fun hb => hno ⟨v, hv, hb⟩]
    exact (route_visits hn).exist v hv

/-- Removing the directory leaves the same tree, whether it is emptied first or not. -/
theorem prune_emptied (os : Os) (hq : q ≠ []) : (emptied os q t).prune q = t.prune q := by
  unfold emptied
  split
  · rfl
  have hentries : (((t.clear q).touch os q).entries.filter fun e => ¬ q <+: e.loc)
      = t.entries.filter fun e => ¬ q <+: e.loc := by
    show (((t.entries.filter fun e => ¬ (q <+: e.loc ∧ e.loc ≠ q)).map
      (Edit.attrAt q os.modified).apply).filter fun e => ¬ q <+: e.loc) = _
    rw [List.filter_map, List.filter_filter]
    have hkeep : (t.entries.filter fun e => ((fun e : Entry => decide ¬ q <+: e.loc) ∘
          (Edit.attrAt q os.modified).apply) e && decide ¬ (q <+: e.loc ∧ e.loc ≠ q))
        = t.entries.filter fun e => ¬ q <+: e.loc := by
      refine List.filter_congr fun e _ => ?_
      rw [Function.comp_apply, Edit.loc_eq]
      by_cases h : q <+: e.loc <;> simp [h]
    rw [hkeep]
    -- the stamp is on the directory, which goes with the rest
    refine (List.map_congr_left fun e he => ?_).trans (List.map_id _)
    have hout : ¬ q <+: e.loc := of_decide_eq_true (List.mem_filter.mp he).2
    exact Edit.attrAt_apply_of_ne fun heq => hout (heq ▸ List.prefix_refl _)
  unfold Tree.prune
  rw [dif_neg hq, dif_neg hq]
  simp only [Tree.mk.injEq]
  exact ⟨hentries, rfl⟩

/-! ### What the call empties -/

/-- `remove_dir_all` of the path empties the directory at `q`: the path names it, or asks
    with a trailing slash for what it leads to. -/
structure Empties (t : Tree) (p : PathBuf) (q : Loc) : Prop where
  leads : Leads t p q
  dir   : t.shape q = some .dir
  named : p.trailing = true ∨ p.names = [] ∨ ∃ d x, Names t p d x ∧ q = d ++ [x]

namespace Empties

/-- The directory that is emptied goes itself, or stays. -/
theorem entry_or_remains (h : Empties t p q) :
    (∃ d x, Names t p d x ∧ q = d ++ [x] ∧ ¬ Severs t p q) ∨ Remains t p ∨ Severs t p q := by
  by_cases hsevers : Severs t p q
  · exact .inr (.inr hsevers)
  by_cases hnil : p.names = []
  · exact .inr (.inl (.inl hnil))
  obtain ⟨d, x, e, hnames, he, hq⟩ := Names.of_resolve h.leads.2 hnil
  by_cases hdir : t.shape (d ++ [x]) = some .dir
  · -- a directory is where its path leads
    rw [Tree.shape_of_look he] at hdir
    have heq : q = d ++ [x] := hq fun tgt htgt => by rw [htgt] at hdir; cases hdir
    exact .inl ⟨d, x, hnames, heq, hsevers⟩
  · rcases h.named with htr | hnil' | ⟨d', x', hnames', rfl⟩
    · exact .inr (.inl (.inr ⟨htr, d, x, hnames, hdir⟩))
    · exact absurd hnil' hnil
    · obtain ⟨rfl, rfl⟩ := hnames.unique hnames'
      exact absurd h.dir hdir

/-- `lstat` of the path finds the directory. -/
theorem lstat (h : Empties t p q) : ∃ e, lstat p t = .ok e ∧ e.loc = q ∧ e.shape = .dir := by
  obtain ⟨e, he, hdir⟩ := Tree.shape_eq_some_iff.mp h.dir
  refine ⟨e, ?_, Tree.look_loc he, hdir⟩
  unfold Fs.lstat
  split
  · exact except_bind_eq_ok.mpr ⟨q, h.leads.2, existing_eq_ok.mpr ⟨e, he, rfl⟩⟩
  · rename_i hno
    obtain ⟨htr, hnil⟩ := not_or.mp hno
    obtain ⟨d, x, hnames, rfl⟩ := (h.named.resolve_left htr).resolve_left hnil
    exact atEntry_eq_ok.mpr ⟨d, x, hnames, existing_eq_ok.mpr ⟨e, he, rfl⟩⟩

/-- The directory is emptied first. -/
theorem removeDirAll (h : Empties t p q) :
    removeDirAll os p t = effect p (rmdirIfThere os p) (emptied os q t) := by
  obtain ⟨e, hlstat, rfl, hdir⟩ := h.lstat
  have hquery : query p (Fs.lstat p) t = .ok e t := query_eq_ok.mpr ⟨h.leads.1, hlstat, rfl⟩
  unfold Fs.removeDirAll
  rw [bind_of_ok hquery]
  simp only [hdir]

end Empties

/-! ### What becomes of the entry -/

/-- `rmdir` takes the named directory, which is empty. -/
theorem rmdir_eq_ok : rmdir os p t = .ok t' ↔
    ∃ d x, Names t p d x ∧ ∃ e, t.look (d ++ [x]) = some e ∧ e.shape = .dir ∧
      t.children (d ++ [x]) = [] ∧ (t.prune (d ++ [x])).touch os d = t' := by
  simp only [rmdir, atEntry_eq_ok, existing_eq_ok, ite_error_eq_ok, Except.ok.injEq, ne_eq, not_not]

/-- An entry that is there is not reported missing. -/
theorem rmdir_ne_enoent {e : Entry} (hnames : Names t p d x) (he : t.look (d ++ [x]) = some e) :
    rmdir os p t ≠ .error .ENOENT := by
  unfold rmdir atEntry existing
  rw [parentOf_eq_ok.mpr hnames]
  simp only [he]
  split
  · simp
  · split <;> simp

/-- The entry of a directory goes with everything below it, if the path still names it once
    the directory is empty. -/
theorem removeDirAll_of_entry (h : Empties t p (d ++ [x])) (hnames : Names t p d x)
    (hway : ¬ Severs t p (d ++ [x])) :
    removeDirAll os p t = .ok () ((t.prune (d ++ [x])).touch os d) := by
  have hshape : (emptied os (d ++ [x]) t).shape (d ++ [x]) = some .dir := by
    rw [shape_emptied_of_not_below fun hb => hb.2 rfl, h.dir]
  obtain ⟨e, he, hdir⟩ := Tree.shape_eq_some_iff.mp hshape
  have hrmdir : rmdir os p (emptied os (d ++ [x]) t) = .ok ((t.prune (d ++ [x])).touch os d) :=
    rmdir_eq_ok.mpr ⟨d, x, names_emptied_iff.mpr ⟨hnames, hway⟩, e, he, hdir,
      children_emptied os _, by rw [prune_emptied os (by simp)]⟩
  rw [h.removeDirAll, effect_eq_ok]
  refine ⟨h.leads.1, ?_⟩
  unfold rmdirIfThere
  rw [hrmdir]

/-- Otherwise only the contents go.  The call still succeeds if the path then leads to
    nothing. -/
theorem removeDirAll_of_remains (h : Empties t p q) (hremains : Remains t p ∨ Severs t p q) :
    (∃ e, removeDirAll os p t = .error e (emptied os q t)) ∨
    removeDirAll os p t = .ok () (emptied os q t) ∧
      ∀ d x, Names (emptied os q t) p d x → (emptied os q t).look (d ++ [x]) = none := by
  rw [h.removeDirAll]
  cases hrmdir : rmdir os p (emptied os q t) with
  | ok t' =>
    -- there is no directory that the path still names
    obtain ⟨d, x, hnames, e, he, hdir, -⟩ := rmdir_eq_ok.mp hrmdir
    obtain ⟨hnames, hway⟩ := names_emptied_iff.mp hnames
    rcases hremains with (hnil | ⟨-, d', x', hnames', hne⟩) | hsevers
    · exact absurd hnil hnames.names_ne
    · obtain ⟨rfl, rfl⟩ := hnames.unique hnames'
      refine absurd (fewer_emptied os q _ _ ?_) hne
      rw [Tree.shape_of_look he, hdir]
    · exact absurd hsevers hway
  | error e =>
    by_cases hgone : e = .ENOENT
    · refine .inr ⟨effect_eq_ok.mpr ⟨h.leads.1, ?_⟩, fun d x hnames => ?_⟩
      · unfold rmdirIfThere
        rw [hrmdir, hgone]
      · by_contra hlook
        obtain ⟨entry, hentry⟩ := Option.ne_none_iff_exists'.mp hlook
        rw [hgone] at hrmdir
        exact rmdir_ne_enoent hnames hentry hrmdir
    · refine .inl ⟨e.toIoError, effect_of_error h.leads.1 ?_⟩
      unfold rmdirIfThere
      rw [hrmdir]
      cases e <;> first | rfl | exact absurd rfl hgone

/-- A link goes itself, where no trailing slash asks for what is behind. -/
theorem removeDirAll_of_link {e : Entry} {tgt : Target} (hnul : p.hasNul = false)
    (hnames : Names t p d x) (he : t.look (d ++ [x]) = some e) (hlink : e.shape = .symlink tgt)
    (htr : p.trailing = false) :
    removeDirAll os p t = .ok () ((t.prune (d ++ [x])).touch os d) := by
  have hlstat : lstat p t = .ok e := by
    unfold lstat
    rw [if_neg (not_or.mpr ⟨by rw [htr]; simp, hnames.names_ne⟩)]
    exact atEntry_eq_ok.mpr ⟨d, x, hnames, existing_eq_ok.mpr ⟨e, he, rfl⟩⟩
  have hquery : query p (lstat p) t = .ok e t := query_eq_ok.mpr ⟨hnul, hlstat, rfl⟩
  unfold removeDirAll
  rw [bind_of_ok hquery]
  simp only [hlink]
  exact removeFile_eq_ok.mpr ⟨hnul, d, x, hnames, e, he, by rw [hlink]; simp, htr, rfl⟩

/-- Emptying a directory takes nothing off a route that does not go below it. -/
theorem keeps_emptied (h : ∀ v ∈ V, q <+: v → v = q) : Keeps V t (emptied os q t) :=
  fun v hv => tag_emptied (h v hv)

/-! ### What can be seen from outside -/

/-- Whether emptying the directory at `q` shows outside the subtree at `r`. -/
def ShowsBelow (os : Os) (r : Loc) (t : Tree) (q : Loc) : Prop :=
  ¬ r <+: q ∧ t.children q ≠ [] ∧
    ((∃ v, q <+: v ∧ v ≠ q ∧ ¬ r <+: v ∧ t.look v ≠ none) ∨ ¬ Stamped os t q)

/-- Emptying a directory is not seen outside, unless something below it shows there. -/
theorem sameOutside_emptied_iff :
    SameOutside r t (emptied os q t) ↔ ¬ ShowsBelow os r t q := by
  constructor
  · rintro hsame ⟨hout, hchildren, ⟨v, hqv, hne, hrv, hlook⟩ | hst⟩
    · exact hlook ((hsame v hrv).symm.trans (look_emptied_below hqv hne))
    · -- only the time of the directory can give it away
      have hq := hsame q hout
      have hkept : (t.clear q).look q = t.look q := Tree.look_clear_of_not_below fun hb => hb.2 rfl
      unfold emptied at hq
      rw [if_neg hchildren] at hq
      refine look_touch_of_not_stamped ?_ (hq.trans hkept.symm)
      unfold Stamped
      rwa [hkept]
  · intro hno v hv
    by_cases hqv : q <+: v
    · by_cases hchildren : t.children q = []
      · unfold emptied
        rw [if_pos hchildren]
      have hout : ¬ r <+: q := fun h => hv (h.trans hqv)
      have hshows := not_or.mp fun h => hno ⟨hout, hchildren, h⟩
      rcases eq_or_ne v q with rfl | hne
      · have hkept : (t.clear v).look v = t.look v :=
          Tree.look_clear_of_not_below fun hb => hb.2 rfl
        have hst : Stamped os (t.clear v) v := by
          unfold Stamped
          rw [hkept]
          exact not_not.mp hshows.2
        unfold emptied
        rw [if_neg hchildren, look_touch_of_stamped hst, hkept]
      · rw [look_emptied_below hqv hne]
        by_contra hlook
        exact hshows.1 ⟨v, hqv, hne, hv, fun hnone => hlook hnone.symm⟩
    · exact look_emptied_of_not_below hqv

end Fs

end Posix
