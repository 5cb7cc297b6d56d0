import Netfilum.Posix.Removal
import Netfilum.Server.Resolve

namespace Netfilum

open Posix Program Rust

/-!
# Making way for the target of a rename

`RpcServer::rename` removes what its new path leads to before it asks the system for the
move.

* `Cleared` — the target is gone, or there was none: the move is then tried.
* `Emptied` — the contents of a directory are gone and its entry is not: the move is bound
  to fail.
* `clearing` — one of the two is what the step comes to.
* `renames` — a rename is refused, makes way and fails, or goes as planned.
-/

variable {srv : RpcServer} {os : Os} {t t' t₁ : Tree} {relative from_ to_ : String}
  {path fromPath toPath : PathBuf} {q q' d : Loc} {x : Name} {replace : Bool}

namespace RpcServer

/-- What an accepted new path adds lies in the exported root. -/
theorem ForNew.within_entry {q d : Loc} {x : Name} (h : srv.ForNew t relative path q)
    (hnames : Names t path d x) : srv.rootReal <+: d ++ [x] := by
  have hd := h.within
  rw [h.dir_eq hnames] at hd
  exact hd.trans (List.prefix_append d [x])

/-- The directory of an entry that a new path names lies within the root. -/
theorem ForNew.within_dir {q d : Loc} {x : Name} (h : srv.ForNew t relative path q)
    (hnames : Names t path d x) : srv.rootReal <+: d :=
  h.dir_eq hnames ▸ h.within

/-! ### The target is cleared -/

/-- The tree in which `rename` makes its move: the target is cleared if it is to be
    replaced. -/
inductive Cleared (os : Os) (t : Tree) (toPath : PathBuf) (replace : Bool) : Tree → Prop where
  | kept (h : ¬ ∃ q, Fs.Leads t toPath q) : Cleared os t toPath replace t
  | removed {d : Loc} {x : Name} (hreplace : replace = true) (h : ∃ q, Fs.Leads t toPath q)
      (hnames : Names t toPath d x)
      (htr : toPath.trailing = true → t.shape (d ++ [x]) = some .dir)
      (hway : ¬ Severs t toPath (d ++ [x])) :
      Cleared os t toPath replace ((t.prune (d ++ [x])).touch os d)

/-- Clearing the target adds nothing to the tree. -/
theorem Cleared.fewer (h : Cleared os t path replace t') : Fewer t'.shape t.shape := by
  cases h with
  | kept h => exact fun _ _ hq => hq
  | removed _ _ _ _ _ =>
    rw [Tree.shape_touch]
    exact Tree.fewer_prune _

/-- The target that is cleared lies within the exported root. -/
theorem Cleared.sameOutside (hnew : srv.ForNew t relative path q)
    (h : Cleared os t path replace t') : SameOutside srv.rootReal t t' := by
  cases h with
  | kept h => exact .refl _ t
  | removed _ _ hnames _ _ =>
    exact (SameOutside.prune (hnew.within_entry hnames) t).trans
      (.touch (hnew.within_dir hnames) _ os)

/-- A target that is cleared is replaced, or leads nowhere. -/
theorem Cleared.keep (h : Cleared os t path replace t') (hr : replace = false) :
    ¬ ∃ q, Fs.Leads t path q := by
  cases h with
  | kept hl => exact hl
  | removed hreplace _ _ _ _ =>
    rw [hr] at hreplace
    cases hreplace

/-- Where the target leads to a directory, it is `remove_dir_all` that makes way. -/
theorem clearTarget_dir (hl : Fs.Leads t path q) (hdir : t.shape q = some .dir) :
    clearTarget os path true t = io (Fs.removeDirAll os path) t := by
  obtain ⟨isDir, hisDir, hdir_iff⟩ := Fs.isDir_ok (t := t) (p := path)
  obtain ⟨isFile, hisFile, -⟩ := Fs.isFile_ok (t := t) (p := path)
  unfold clearTarget
  rw [bind_of_ok (io_eq_ok.mpr hisDir), bind_of_ok (io_eq_ok.mpr hisFile),
    if_pos ⟨rfl, hdir_iff.mpr ⟨q, hl, hdir⟩⟩]

/-- Where it leads to a file, it is `remove_file`. -/
theorem clearTarget_file (hl : Fs.Leads t path q) (hfile : t.shape q = some .file) :
    clearTarget os path true t = io (Fs.removeFile os path) t := by
  obtain ⟨isDir, hisDir, hdir_iff⟩ := Fs.isDir_ok (t := t) (p := path)
  obtain ⟨isFile, hisFile, hfile_iff⟩ := Fs.isFile_ok (t := t) (p := path)
  have hno : ¬ isDir = true := by
    intro h
    obtain ⟨r, hl', hdir⟩ := hdir_iff.mp h
    obtain rfl := hl.unique hl'
    rw [hfile] at hdir
    cases hdir
  unfold clearTarget
  rw [bind_of_ok (io_eq_ok.mpr hisDir), bind_of_ok (io_eq_ok.mpr hisFile),
    if_neg fun hc => hno hc.2, if_pos ⟨rfl, hfile_iff.mpr ⟨q, hl, hfile⟩⟩]

/-- The target can be cleared. -/
theorem Cleared.run (h : Cleared os t path replace t') :
    clearTarget os path replace t = .ok () t' := by
  cases h with
  | kept h =>
    obtain ⟨isDir, hdir, hdir_iff⟩ := Fs.isDir_ok (t := t) (p := path)
    obtain ⟨isFile, hfile, hfile_iff⟩ := Fs.isFile_ok (t := t) (p := path)
    -- nothing is in the way: both questions are answered "no"
    have hd : ¬ (replace = true ∧ isDir = true) := fun hc =>
      have ⟨q, hl, _⟩ := hdir_iff.mp hc.2
      h ⟨q, hl⟩
    have hf : ¬ (replace = true ∧ isFile = true) := fun hc =>
      have ⟨q, hl, _⟩ := hfile_iff.mp hc.2
      h ⟨q, hl⟩
    unfold clearTarget
    rw [bind_of_ok (io_eq_ok.mpr hdir), bind_of_ok (io_eq_ok.mpr hfile), if_neg hd, if_neg hf]
    rfl
  | @removed d x hreplace hleads hnames htr hway =>
    subst hreplace
    obtain ⟨q, hl⟩ := hleads
    obtain ⟨e, he, hq⟩ := hnames.entry_of_resolve hl.2
    have hnotr : e.shape ≠ .dir → path.trailing = false := by
      intro hne
      by_contra ht
      have hs := htr (by simpa using ht)
      rw [Tree.shape_of_look he] at hs
      exact hne (Option.some.inj hs)
    rcases shape_of_resolve hl.2 with hs | hs
    · -- a file, or a link to one
      have hne : e.shape ≠ .dir := by
        intro hdir
        rw [hq (by rw [hdir]; simp), Tree.shape_of_look he, hdir] at hs
        cases hs
      rw [clearTarget_file hl hs]
      exact io_eq_ok.mpr (Fs.removeFile_eq_ok.mpr ⟨hl.1, d, x, hnames, e, he, hne, hnotr hne, rfl⟩)
    · -- a directory, or a link to one
      rw [clearTarget_dir hl hs]
      refine io_eq_ok.mpr ?_
      cases hshape : e.shape with
      | symlink tgt =>
        exact Fs.removeDirAll_of_link hl.1 hnames he hshape (hnotr (by rw [hshape]; simp))
      | dir =>
        obtain rfl := hq (by rw [hshape]; simp)
        exact Fs.removeDirAll_of_entry ⟨hl, hs, .inr (.inr ⟨d, x, hnames, rfl⟩)⟩ hnames hway
      | file =>
        rw [hq (by rw [hshape]; simp), Tree.shape_of_look he, hshape] at hs
        cases hs

/-! ### The target is emptied and stays -/

/-- The directory at `q` is emptied to make way for the target, and the target is still in
    the way, or its path leads no further. -/
structure Emptied (t : Tree) (path : PathBuf) (q : Loc) : Prop where
  empties : Fs.Empties t path q
  remains : Remains t path ∨ Severs t path q

/-- Making way comes to one of two things. -/
theorem clearing (os : Os) (hkeep : replace = false → ¬ ∃ q, Fs.Leads t path q) :
    (∃ t₁, Cleared os t path replace t₁) ∨ replace = true ∧ ∃ q, Emptied t path q := by
  by_cases hleads : ∃ q, Fs.Leads t path q
  · have hreplace : replace = true := by
      by_contra hr
      exact hkeep (by simpa using hr) hleads
    obtain ⟨q, hl⟩ := hleads
    by_cases hempties : Fs.Empties t path q
    · rcases hempties.entry_or_remains with ⟨d, x, hnames, rfl, hway⟩ | hremains
      · exact .inl ⟨_, .removed hreplace ⟨_, hl⟩ hnames (fun _ => hempties.dir) hway⟩
      · exact .inr ⟨hreplace, q, hempties, hremains⟩
    · -- a file, or a link that goes as a link
      left
      have hnil : path.names ≠ [] := by
        intro hnil
        have hq := resolve_nil (t := t) hnil
        rw [hl.2] at hq
        cases hq
        exact hempties ⟨hl, Tree.shape_root, .inr (.inl hnil)⟩
      obtain ⟨d, x, e, hnames, he, hq⟩ := Names.of_resolve hl.2 hnil
      have hleaf : t.shape (d ++ [x]) ≠ some .dir := by
        intro hdir
        have hshape := hdir
        rw [Tree.shape_of_look he] at hshape
        obtain rfl := hq fun tgt htgt => by rw [htgt] at hshape; cases hshape
        exact hempties ⟨hl, hdir, .inr (.inr ⟨d, x, hnames, rfl⟩)⟩
      refine ⟨_, .removed hreplace ⟨q, hl⟩ hnames (fun htr => ?_) (not_severs_of_leaf hnames hleaf)⟩
      exact absurd ⟨hl, (walk_of_resolve hl.2).2 htr, .inl htr⟩ hempties
  · exact .inl ⟨t, .kept hleads⟩

namespace Emptied

/-- The contents go; the step still succeeds if the path then names nothing. -/
theorem run (h : Emptied t path q) (os : Os) :
    (∃ e, clearTarget os path true t = .error e (Fs.emptied os q t)) ∨
    clearTarget os path true t = .ok () (Fs.emptied os q t) ∧
      ∀ d x, Names (Fs.emptied os q t) path d x → (Fs.emptied os q t).look (d ++ [x]) = none := by
  rw [clearTarget_dir h.empties.leads h.empties.dir]
  rcases Fs.removeDirAll_of_remains h.empties h.remains with ⟨e, herr⟩ | ⟨hok, hlost⟩
  · exact .inl ⟨_, mapError_of_error herr⟩
  · exact .inr ⟨io_eq_ok.mpr hok, hlost⟩

end Emptied

/-! ### The move after it -/

/-- The steps of `rename` before its move. -/
theorem rename_apply (os : Os) {from_ to_ : String} {replace : Bool} {fromPath toPath : PathBuf}
    {q q' : Loc}
    (hfrom : srv.Existing t from_ fromPath q) (hto : srv.ForNew t to_ toPath q')
    (hkeep : replace = false → ¬ ∃ r, Fs.Leads t toPath r) :
    srv.rename os from_ to_ replace t
      = (clearTarget os toPath replace >>= fun _ => io (Fs.rename os fromPath toPath)) t := by
  obtain ⟨taken, htaken, htaken_iff⟩ := Fs.pathExists_ok (t := t) (p := toPath)
  have hfree : ¬ (¬ replace = true ∧ taken = true) := by
    rintro ⟨hr, ht⟩
    exact hkeep (by simpa using hr) (htaken_iff.mp ht)
  have hrefuse : refuseIf (¬ replace = true ∧ taken = true)
      ⟨.alreadyExists, "target already exists"⟩ t = .ok () t := refuseIf_eq_ok.mpr ⟨hfree, rfl⟩
  unfold rename
  rw [bind_of_ok (resolveExisting_eq_ok.mpr ⟨⟨q, hfrom⟩, rfl⟩),
    bind_of_ok (resolveForNewPath_eq_ok.mpr ⟨⟨q', hto⟩, rfl⟩),
    bind_of_ok (io_eq_ok.mpr htaken), bind_of_ok hrefuse]

/-- A path that continues one that names nothing names nothing itself. -/
theorem not_names_of_lost {rel : List Name} (hlost : ∀ d x, Names t (srv.root.join []) d x →
      t.look (d ++ [x]) = none) {d' : Loc} {x' : Name} (hto : Names t (srv.root.join []) d' x')
    (hfrom : Names t (srv.root.join rel) d x) : t.look (d ++ [x]) = none := by
  rcases eq_or_ne rel [] with rfl | hne
  · exact hlost d x hfrom
  -- the way of the longer path goes through the end of the shorter one
  obtain ⟨n, hn⟩ := hfrom.walks
  unfold PathBuf.join at hn
  rw [if_neg hne, List.dropLast_append_of_ne_nil hne, List.map_append, walk_append] at hn
  cases hw : walk t.shape maxLinks [] (srv.root.names.map .name) with
  | error e => rw [hw] at hn; cases hn
  | ok r =>
    have hres : resolve t ⟨srv.root.names, false⟩ = .ok r.1 :=
      resolve_eq_ok.mpr ⟨r.2, by simpa [PathBuf.todo] using hw⟩
    have hnames : Names t ⟨srv.root.names, false⟩ d' x' := ⟨hto.last, hto.walks, hto.dir⟩
    obtain ⟨e, he, -⟩ := hnames.entry_of_resolve hres
    rw [hlost d' x' hto] at he
    cases he

/-- Where the target is emptied and stays, the rename fails and the contents are gone. -/
theorem Emptied.rename (h : Emptied t toPath q) (os : Os) {r r' : Loc}
    (hfrom : srv.Existing t from_ fromPath r) (hto : srv.ForNew t to_ toPath r') :
    ∃ e, srv.rename os from_ to_ true t = .error e (Fs.emptied os q t) := by
  have happly : srv.rename os from_ to_ true t = _ :=
    rename_apply os hfrom hto fun hr => by cases hr
  rcases h.run os with ⟨e, herr⟩ | ⟨hok, hlost⟩
  · exact ⟨e, happly.trans (bind_of_error herr)⟩
  rw [happly, bind_of_ok hok]
  cases hmove : Fs.rename os fromPath toPath (Fs.emptied os q t) with
  | error e t₂ =>
    obtain rfl := Fs.rename_error hmove
    exact ⟨_, mapError_of_error hmove⟩
  | ok u t₂ =>
    -- there is nothing that the new path could name
    obtain ⟨-, -, src, dst, hplan, -⟩ := Fs.rename_eq_ok.mp hmove
    obtain ⟨d, x, hsrc, d', x', hdst, e, he, -⟩ := Fs.renamePlan_eq_ok.mp hplan
    obtain ⟨rel, -, rfl⟩ := hfrom.joins
    obtain ⟨rel', -, rfl⟩ := hto.joins
    rcases eq_or_ne rel' [] with rfl | hne
    · rw [not_names_of_lost hlost hdst hsrc] at he
      cases he
    · obtain ⟨d₀, x₀, hnames, rfl⟩ := (h.empties.named.resolve_left (by
        unfold PathBuf.join
        rw [if_neg hne]
        simp)).resolve_left hdst.names_ne
      obtain ⟨rfl, rfl⟩ := hnames.unique (hdst.mono (Fs.fewer_emptied os _))
      have hgone := Tree.shape_eq_none_iff.mpr (hlost _ _ hdst)
      rw [Fs.shape_emptied_of_not_below fun hb => hb.2 rfl, h.empties.dir] at hgone
      cases hgone

/-! ### What a rename does -/

/-- `Rename` succeeds: it clears its target, which leaves `t₁`, and moves `src` to `dst`. -/
structure Plans (srv : RpcServer) (os : Os) (t : Tree) (from_ to_ : String) (replace : Bool)
    (fromPath toPath : PathBuf) (t₁ : Tree) (src dst : Loc) : Prop where
  existing : ∃ q, srv.Existing t from_ fromPath q
  forNew   : ∃ q, srv.ForNew t to_ toPath q
  nul      : toPath.hasNul = false
  cleared  : Cleared os t toPath replace t₁
  plan     : Fs.renamePlan fromPath toPath t₁ = .ok (src, dst)

/-- A rename that plans this move makes it. -/
theorem Plans.run {src dst : Loc}
    (h : srv.Plans os t from_ to_ replace fromPath toPath t₁ src dst) :
    srv.rename os from_ to_ replace t = .ok () (Fs.renamed os src dst t₁) := by
  obtain ⟨q, hfrom⟩ := h.existing
  obtain ⟨q', hto⟩ := h.forNew
  rw [rename_apply os hfrom hto h.cleared.keep, bind_of_ok h.cleared.run]
  exact io_eq_ok.mpr (Fs.rename_eq_ok.mpr ⟨hfrom.nul, h.nul, src, dst, h.plan, rfl⟩)

/-- What a rename comes to: it is refused and changes nothing, it makes way for its target
    and then fails, or it goes as planned. -/
inductive Renames (srv : RpcServer) (os : Os) (t : Tree) (from_ to_ : String)
    (replace : Bool) : Prop where
  | refused {e : RpcError} (h : srv.rename os from_ to_ replace t = .error e t)
  | cleared {e : RpcError} {fromPath toPath : PathBuf} {q q' : Loc} {t₁ : Tree}
      (hfrom : srv.Existing t from_ fromPath q) (hto : srv.ForNew t to_ toPath q')
      (hcleared : Cleared os t toPath replace t₁)
      (hplan : ¬ ∃ plan, Fs.renamePlan fromPath toPath t₁ = .ok plan)
      (h : srv.rename os from_ to_ replace t = .error e t₁)
  | emptied {e : RpcError} {fromPath toPath : PathBuf} {q q' r : Loc}
      (hfrom : srv.Existing t from_ fromPath q) (hto : srv.ForNew t to_ toPath q')
      (hreplace : replace = true) (hemptied : Emptied t toPath r)
      (h : srv.rename os from_ to_ replace t = .error e (Fs.emptied os r t))
  | planned {fromPath toPath : PathBuf} {t₁ : Tree} {src dst : Loc}
      (h : srv.Plans os t from_ to_ replace fromPath toPath t₁ src dst)

/-- **The cases of a rename** are all there are. -/
theorem renames (srv : RpcServer) (os : Os) (t : Tree) (from_ to_ : String) (replace : Bool) :
    srv.Renames os t from_ to_ replace := by
  cases hfp : srv.resolveExisting from_ t with
  | error e s =>
    have hs : final (srv.resolveExisting from_ t) = t := quiet_resolveExisting t
    rw [hfp] at hs
    subst hs
    exact .refused (bind_of_error hfp)
  | ok fp s =>
  -- both paths are accepted
  obtain ⟨⟨q, hfrom⟩, rfl⟩ := resolveExisting_eq_ok.mp hfp
  cases htp : srv.resolveForNewPath to_ s with
  | error e s' =>
    have hs : final (srv.resolveForNewPath to_ s) = s := quiet_resolveForNewPath s
    rw [htp] at hs
    subst hs
    exact .refused ((bind_of_ok hfp).trans (bind_of_error htp))
  | ok tp s' =>
  obtain ⟨⟨q', hto⟩, rfl⟩ := resolveForNewPath_eq_ok.mp htp
  by_cases hkeep : replace = false → ¬ ∃ r, Fs.Leads s' tp r
  · rcases clearing os hkeep with ⟨t₁, hcleared⟩ | ⟨rfl, r, hemptied⟩
    · have happly := rename_apply os hfrom hto hkeep
      rw [bind_of_ok hcleared.run] at happly
      cases hmove : Fs.rename os fp tp t₁ with
      | error e t₂ =>
        -- the target was cleared, and the move failed
        obtain rfl := Fs.rename_error hmove
        have hfails := happly.trans (mapError_of_error hmove)
        by_cases hnul : tp.hasNul = false
        · refine .cleared hfrom hto hcleared (fun ⟨plan, hplan⟩ => ?_) hfails
          have hok : Fs.rename os fp tp t₂ = .ok () (Fs.renamed os plan.1 plan.2 t₂) :=
            Fs.rename_eq_ok.mpr ⟨hfrom.nul, hnul, plan.1, plan.2, hplan, rfl⟩
          rw [hmove] at hok
          cases hok
        · -- a path with a NUL byte leads nowhere, so nothing was cleared
          cases hcleared with
          | kept _ => exact .refused hfails
          | removed _ hl _ _ _ => exact absurd hl.choose_spec.1 hnul
      | ok u t₂ =>
        obtain ⟨-, hnul, src, dst, hplan, rfl⟩ := Fs.rename_eq_ok.mp hmove
        exact .planned ⟨⟨q, hfrom⟩, ⟨q', hto⟩, hnul, hcleared, hplan⟩
    · obtain ⟨e, h⟩ := hemptied.rename os hfrom hto
      exact .emptied hfrom hto rfl hemptied h
  · -- the target is in the way
    obtain ⟨hr, hl⟩ := Classical.not_imp.mp hkeep
    obtain ⟨taken, htaken, htaken_iff⟩ := Fs.pathExists_ok (t := s') (p := tp)
    have hrefuse : refuseIf (¬ replace = true ∧ taken = true)
        ⟨.alreadyExists, "target already exists"⟩ s'
          = .error ⟨.alreadyExists, "target already exists"⟩ s' := by
      unfold refuseIf
      rw [if_pos ⟨by simp [hr], htaken_iff.mpr (not_not.mp hl)⟩]
      rfl
    have hrename : srv.rename os from_ to_ replace s'
        = .error ⟨.alreadyExists, "target already exists"⟩ s' := by
      unfold rename
      rw [bind_of_ok hfp, bind_of_ok htp, bind_of_ok (io_eq_ok.mpr htaken), bind_of_error hrefuse]
    exact .refused hrename

/-- What holds of the tree, of the tree with the target out of the way and of the tree after
    the move holds after a rename. -/
theorem rename_induct (P : Tree → Prop) (hsame : P t)
    (hcleared : ∀ fp tp q q' t₁, srv.Existing t from_ fp q → srv.ForNew t to_ tp q' →
      Cleared os t tp replace t₁ → P t₁)
    (hemptied : ∀ fp tp q q' r, srv.Existing t from_ fp q → srv.ForNew t to_ tp q' →
      replace = true → Emptied t tp r → P (Fs.emptied os r t))
    (hmove : ∀ fp tp t₁ src dst, srv.Plans os t from_ to_ replace fp tp t₁ src dst → P t₁ →
      P (Fs.renamed os src dst t₁)) :
    P (final (srv.rename os from_ to_ replace t)) := by
  cases srv.renames os t from_ to_ replace with
  | refused h =>
    rw [h]
    exact hsame
  | cleared hfrom hto hc _ h =>
    rw [h]
    exact hcleared _ _ _ _ _ hfrom hto hc
  | emptied hfrom hto hreplace he h =>
    rw [h]
    exact hemptied _ _ _ _ _ hfrom hto hreplace he
  | planned hplans =>
    rw [hplans.run]
    obtain ⟨q, hfrom⟩ := hplans.existing
    obtain ⟨q', hto⟩ := hplans.forNew
    exact hmove _ _ _ _ _ hplans (hcleared _ _ _ _ _ hfrom hto hplans.cleared)

end RpcServer

end Netfilum
