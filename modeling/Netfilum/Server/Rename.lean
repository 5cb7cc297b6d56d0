import Netfilum.Posix.Moves
import Netfilum.Server.Takes

namespace Netfilum

open Posix Program Rust

/-!
# Renaming

`RpcServer::rename` first makes way for its target and then asks the system for the move,
which can still fail.

* `Strands` — without the cleared entry the move is bound to fail.
* `rename_unharmed_iff` — a rename that fails leaves the tree alone exactly when it does
  not remove anything first.
* `rename_effect` — a rename that succeeds moves the entry that its path names to where
  the new path names one.
-/

variable {srv : RpcServer} {os : Os} {t t' : Tree} {fromPath toPath : PathBuf}
  {src dst q d : Loc} {x : Name}

namespace RpcServer

/-! ### The move after the target is cleared -/

/-- With the entry at `dst` gone, `fromPath` cannot be moved to `toPath`. -/
inductive Strands (t : Tree) (fromPath toPath : PathBuf) (dst : Loc) : Prop where
  | root (h : fromPath.names = [])
  | onWay (h : dst ∈ approach t fromPath ∨ dst ∈ approach t toPath)
  | nested {d : Loc} {x : Name} (h : Names t fromPath d x)
      (hnested : d ++ [x] <+: dst ∨ dst <+: d ++ [x])
  | slash {d : Loc} {x : Name} (h : Names t fromPath d x) (hs : t.shape (d ++ [x]) ≠ some .dir)
      (htr : fromPath.trailing = true ∨ toPath.trailing = true)

/-- Once the entry `x` of `d` is cleared, the move succeeds unless it is stranded. -/
theorem renamePlan_prune_iff (hq : resolve t fromPath = .ok q) (hto : Names t toPath d x) :
    (∃ plan, Fs.renamePlan fromPath toPath ((t.prune (d ++ [x])).touch os d) = .ok plan) ↔
      ¬ Strands t fromPath toPath (d ++ [x]) := by
  have hdst : d ++ [x] ≠ [] := by simp
  -- a path still names what it named, unless it passed through the entry
  have htouch : ∀ p d' x', Names ((t.prune (d ++ [x])).touch os d) p d' x' ↔
      Names t p d' x' ∧ d ++ [x] ∉ approach t p := fun p d' x' =>
    (names_touch os d).trans (names_prune_iff hdst)
  have hshape : ∀ v, ((t.prune (d ++ [x])).touch os d).shape v
      = if d ++ [x] <+: v then none else t.shape v := fun v => by
    rw [Tree.shape_touch, Tree.shape_prune hdst]
  constructor
  · rintro ⟨⟨src, dst⟩, hplan⟩ hstrands
    obtain ⟨d₁, x₁, hsrc, d', x', hdst', e, he, htr, hapart, rfl, rfl⟩ :=
      Fs.renamePlan_eq_ok.mp hplan
    obtain ⟨hsrc, hsrcway⟩ := (htouch _ _ _).mp hsrc
    obtain ⟨hdst', hdstway⟩ := (htouch _ _ _).mp hdst'
    obtain ⟨rfl, rfl⟩ := hto.unique hdst'
    have hs := Tree.shape_of_look he
    rw [hshape] at hs
    have hout : ¬ d ++ [x] <+: d₁ ++ [x₁] := by
      intro h
      rw [if_pos h] at hs
      cases hs
    rw [if_neg hout] at hs
    have hne : d₁ ++ [x₁] ≠ d ++ [x] := fun h => hout (h ▸ List.prefix_refl _)
    -- each way of being stranded contradicts one condition of the move
    cases hstrands with
    | root h => exact hsrc.names_ne h
    | onWay h =>
      rcases h with h | h
      · exact hsrcway h
      · exact hdstway h
    | nested h hnested =>
      obtain ⟨rfl, rfl⟩ := h.unique hsrc
      rcases hnested with h | h
      · exact (hapart hne).1 h
      · exact hout h
    | slash h hs' htr' =>
      obtain ⟨rfl, rfl⟩ := h.unique hsrc
      exact htr ⟨fun hdir => hs' (by rw [hs, hdir]), htr'⟩
  · intro hno
    have hnames : fromPath.names ≠ [] := fun h => hno (.root h)
    obtain ⟨d₁, x₁, e, hsrc, he, -⟩ := Names.of_resolve hq hnames
    have hout : ¬ d ++ [x] <+: d₁ ++ [x₁] := fun h => hno (.nested hsrc (.inr h))
    have hin : ¬ d₁ ++ [x₁] <+: d ++ [x] := fun h => hno (.nested hsrc (.inl h))
    have hs : ((t.prune (d ++ [x])).touch os d).shape (d₁ ++ [x₁]) = some e.shape := by
      rw [hshape, if_neg hout, Tree.shape_of_look he]
    obtain ⟨e₁, he₁, hse⟩ := Tree.shape_eq_some_iff.mp hs
    -- nothing is left at the target
    have hfree : Fs.Free ((t.prune (d ++ [x])).touch os d) e₁ (d ++ [x]) := by
      intro e' he'
      have hs' := Tree.shape_of_look he'
      rw [hshape, if_pos (List.prefix_refl _)] at hs'
      cases hs'
    refine ⟨(d₁ ++ [x₁], d ++ [x]), Fs.renamePlan_eq_ok.mpr ⟨d₁, x₁, ?_, d, x, ?_, e₁, he₁, ?_,
      fun _ => ⟨hin, hout, hfree⟩, rfl, rfl⟩⟩
    · exact (htouch _ _ _).mpr ⟨hsrc, fun h => hno (.onWay (.inl h))⟩
    · exact (htouch _ _ _).mpr ⟨hto, fun h => hno (.onWay (.inr h))⟩
    · rintro ⟨hdir, htr⟩
      refine hno (.slash hsrc (fun h => hdir ?_) htr)
      rw [Tree.shape_of_look he] at h
      rw [hse, Option.some.inj h]

/-! ### A rename that fails -/

/-- `Rename` removes something to make way for its target and then fails: the target itself
    stays in the way, or without what is removed the move is stranded. -/
def Damages (srv : RpcServer) (t : Tree) (from_ to_ : String) (replace : Bool) : Prop :=
  ∃ fromPath toPath q q' v, srv.Existing t from_ fromPath q ∧ srv.ForNew t to_ toPath q' ∧
    Clears t toPath replace v ∧ t.look v ≠ none ∧ (Remains t toPath ∨ Strands t fromPath toPath v)

variable {from_ to_ : String} {replace : Bool} {r v : Loc}

/-- What is stranded without something below an entry is stranded without the entry. -/
theorem Strands.above (h : Strands t fromPath toPath v) (hv : d ++ [x] <+: v) :
    Strands t fromPath toPath (d ++ [x]) := by
  cases h with
  | root h => exact .root h
  | onWay h =>
    exact .onWay (h.imp (fun h => approach_above h hv (by simp))
      fun h => approach_above h hv (by simp))
  | nested h hnested =>
    refine .nested h ?_
    rcases hnested with hsrc | hsrc
    · exact List.prefix_or_prefix_of_prefix hsrc hv
    · exact .inr (hv.trans hsrc)
  | slash h hs htr => exact .slash h hs htr

/-- A rename whose move is stranded fails once its target is cleared. -/
theorem rename_of_strands (hfrom : srv.Existing t from_ fromPath q)
    (hto : srv.ForNew t to_ toPath r) (hl : ∃ q, Fs.Leads t toPath q) (hnames : Names t toPath d x)
    (htr : toPath.trailing = true → t.shape (d ++ [x]) = some .dir)
    (hway : ¬ Severs t toPath (d ++ [x])) (hstrands : Strands t fromPath toPath (d ++ [x]))
    (os : Os) :
    ∃ e, srv.rename os from_ to_ true t = .error e ((t.prune (d ++ [x])).touch os d) := by
  have happly : srv.rename os from_ to_ true t = _ :=
    rename_apply os hfrom hto fun hr => by cases hr
  rw [happly, bind_of_ok (Cleared.removed rfl hl hnames htr hway).run]
  cases hmove : Fs.rename os fromPath toPath ((t.prune (d ++ [x])).touch os d) with
  | ok u t₂ =>
    obtain ⟨-, -, src, dst, hplan, -⟩ := Fs.rename_eq_ok.mp hmove
    exact absurd hstrands ((renamePlan_prune_iff hfrom.resolves hnames).mp ⟨_, hplan⟩)
  | error e t₂ =>
    obtain rfl := Fs.rename_error hmove
    exact ⟨_, mapError_of_error hmove⟩

/-- A rename that removes something and is stranded fails, and what it removed is gone. -/
theorem Damages.harm (h : srv.Damages t from_ to_ replace) (os : Os) :
    ∃ e t', srv.rename os from_ to_ replace t = .error e t' ∧ t' ≠ t := by
  obtain ⟨fp, tp, q, q', v, hfrom, hto, hclears, hv, hway⟩ := h
  obtain ⟨rfl, hleads⟩ := hclears.leads
  have hkeep : true = false → ¬ ∃ r, Fs.Leads t tp r := fun hr => by cases hr
  rcases clearing os hkeep with ⟨t₁, hcleared⟩ | ⟨-, r, hemptied⟩
  · cases hcleared with
    | kept hno => exact absurd hleads hno
    | @removed d x hr hl hnames htr hsevers =>
      have hbelow := hclears.at_or_below hnames htr
      have hstrands := (hway.resolve_left (not_remains_of_entry hnames htr)).above hbelow
      obtain ⟨e, hrename⟩ := rename_of_strands hfrom hto hl hnames htr hsevers hstrands os
      refine ⟨e, _, hrename, fun heq => hv ?_⟩
      have hgone : ((t.prune (d ++ [x])).touch os d).shape v = none := by
        rw [Tree.shape_touch, Tree.shape_prune (by simp), if_pos hbelow]
      rw [heq] at hgone
      exact Tree.shape_eq_none_iff.mp hgone
  · obtain ⟨e, hrename⟩ := hemptied.rename os hfrom hto
    obtain ⟨hbelow, hne⟩ := hclears.below_emptied hemptied
    refine ⟨e, _, hrename, fun heq => hv ?_⟩
    rw [← heq]
    exact Fs.look_emptied_below hbelow hne

/-- Where the entry stays, emptying the directory does damage unless it is empty. -/
theorem Emptied.damages (h : Emptied t toPath q) {r r' : Loc}
    (hfrom : srv.Existing t from_ fromPath r) (hto : srv.ForNew t to_ toPath r')
    (hchildren : t.children q ≠ []) : srv.Damages t from_ to_ true := by
  rcases h.remains with hremains | ⟨v, hv, hqv, hne⟩
  · obtain ⟨y, hy⟩ : ∃ y, t.look (q ++ [y]) ≠ none := by
      by_contra hno
      exact hchildren (Tree.children_eq_nil_iff.mpr fun y => not_not.mp fun hy => hno ⟨y, hy⟩)
    exact ⟨fromPath, toPath, r, r', q ++ [y], hfrom, hto,
      .below rfl h.empties (List.prefix_append q [y]) (by simp), hy, .inl hremains⟩
  · -- the way leads through what is removed
    have hnil : toPath.names ≠ [] := by
      intro hnil
      unfold approach at hv
      rw [hnil, List.dropLast_nil, List.map_nil, visits_nil] at hv
      cases hv
    obtain ⟨d, x, e, hnames, -⟩ := Names.of_resolve h.empties.leads.2 hnil
    obtain ⟨n, hn⟩ := hnames.walks
    refine ⟨fromPath, toPath, r, r', v, hfrom, hto, .below rfl h.empties hqv hne, fun hnone => ?_,
      .inr (.onWay (.inr hv))⟩
    exact (route_visits hn).exist v hv (Tree.shape_eq_none_iff.mpr hnone)

/-- **A failed rename does no damage** exactly when it does not first remove something without
    which its move is stranded, or of which the rest stays in the way. -/
theorem rename_unharmed_iff (srv : RpcServer) (os : Os) (t : Tree) (from_ to_ : String)
    (replace : Bool) :
    (∀ e t', srv.rename os from_ to_ replace t = .error e t' → t' = t) ↔
      ¬ srv.Damages t from_ to_ replace := by
  constructor
  · intro hsame hdamages
    obtain ⟨e, t', hrename, hne⟩ := hdamages.harm os
    exact hne (hsame e t' hrename)
  · intro hno e t' hrename
    cases srv.renames os t from_ to_ replace with
    | refused h =>
      rw [h] at hrename
      cases hrename
      rfl
    | @cleared e' fp tp q q' t₁ hfrom hto hcleared hplan h =>
      rw [h] at hrename
      cases hrename
      cases hcleared with
      | kept _ => rfl
      | @removed d x hr hl hnames htr hsevers =>
        -- the move was not planned, so it was stranded
        obtain ⟨r, hl⟩ := hl
        obtain ⟨entry, he, -⟩ := hnames.entry_of_resolve hl.2
        have hstrands : Strands t fp tp (d ++ [x]) := by
          by_contra hno
          exact hplan ((renamePlan_prune_iff hfrom.resolves hnames).mpr hno)
        exact absurd ⟨fp, tp, q, q', d ++ [x], hfrom, hto,
          .entry hr ⟨r, hl⟩ hnames htr hsevers, by rw [he]; simp, .inr hstrands⟩ hno
    | @emptied e' fp tp q q' r hfrom hto hreplace hemptied h =>
      subst hreplace
      have hempty : t.children r = [] := by
        by_contra hchildren
        exact hno (hemptied.damages hfrom hto hchildren)
      have hsame : Fs.emptied os r t = t := if_pos hempty
      rw [h, hsame] at hrename
      cases hrename
      rfl
    | planned hplans =>
      rw [hplans.run] at hrename
      cases hrename

/-- The exported `/r` holds a file, a directory with a file in it, and a link to nowhere. -/
def treeToRename : Tree where
  entries := [
    oldEntry [] 0 (.dir 0),
    oldEntry ["r"] 1 (.dir 0),
    oldEntry ["r", "f"] 2 (.file [1]),
    oldEntry ["r", "d"] 3 (.dir 0),
    oldEntry ["r", "d", "g"] 4 (.file [2]),
    oldEntry ["r", "l"] 5 (.symlink ⟨false, [.name (Utf8.encode "n")]⟩)]
  next := 6
  locs_nodup := by decide
  inos_nodup := by decide
  inos_lt := by decide
  closed := by decide
  root := by decide

/-- Renaming `f` to itself with `replace_if_exists` fails and deletes the file. -/
theorem rename_to_self_damages :
    ¬ ∀ e t', serverAtR.rename (.atTime ⟨1, 0⟩) "f" "f" true treeToRename = .error e t' →
      t' = treeToRename := by
  intro hsame
  have hbefore : (treeToRename.look (["r", "f"].map Utf8.encode)).isSome = true := by decide
  have hafter : (final (serverAtR.rename (.atTime ⟨1, 0⟩) "f" "f" true treeToRename)).look
      (["r", "f"].map Utf8.encode) = none := by decide
  cases hrename : serverAtR.rename (.atTime ⟨1, 0⟩) "f" "f" true treeToRename with
  | ok u t' =>
    have hfails : outcome (serverAtR.rename (.atTime ⟨1, 0⟩) "f" "f" true treeToRename)
        ≠ .ok () := by decide
    rw [hrename] at hfails
    exact hfails rfl
  | error e t' =>
    rw [hrename, final_error, hsame e t' hrename] at hafter
    rw [hafter] at hbefore
    cases hbefore

/-- The export behind the link `/r/l`, which leads to `/r`. -/
def serverBehindLink : RpcServer where
  root := ⟨["r", "l"].map Utf8.encode, false⟩
  rootReal := [Utf8.encode "r"]
  volumeLabel := "r"

/-- `/r` holds a file and the link. -/
def treeBehindLink : Tree where
  entries := [
    oldEntry [] 0 (.dir 0),
    oldEntry ["r"] 1 (.dir 0),
    oldEntry ["r", "f"] 2 (.file [1]),
    oldEntry ["r", "l"] 3 (.symlink ⟨true, [.name (Utf8.encode "r")]⟩)]
  next := 4
  locs_nodup := by decide
  inos_nodup := by decide
  inos_lt := by decide
  closed := by decide
  root := by decide

-- the empty path is that of the link with a trailing slash: the whole export is emptied
example :
    outcome (serverBehindLink.rename (.atTime ⟨1, 0⟩) "f" "" true treeBehindLink) ≠ .ok () ∧
      (final (serverBehindLink.rename (.atTime ⟨1, 0⟩) "f" "" true treeBehindLink)).children
        serverBehindLink.rootReal = [] := by decide

/-! ### A rename that succeeds -/

/-- What a rename from `src` to `dst` leaves behind. -/
structure Effect (os : Os) (t t' : Tree) (fromPath toPath : PathBuf) (replace : Bool)
    (src dst : Loc) : Prop where
  moved   : Moved os src dst t t'
  left    : src ≠ dst → dst ∉ approach t fromPath →
    ∀ d x, Names t' fromPath d x → t'.look (d ++ [x]) = none
  arrived : src ∉ approach t toPath → dst ∉ approach t toPath →
    ∀ d x, Names t toPath d x → Names t' toPath d x
  free    : replace = false → ∀ q, ¬ Fs.Leads t toPath q
  gone    : replace = true → src ≠ dst → ∀ e ∈ t.entries, dst <+: e.loc → ¬ t'.Has e.ino

/-- A move that goes as planned, seen from the tree before the target was cleared. -/
theorem Plans.moved {fp tp : PathBuf} {t₁ : Tree}
    (h : srv.Plans os t from_ to_ replace fp tp t₁ src dst) :
    Moved os src dst t (Fs.renamed os src dst t₁) := by
  obtain ⟨d, x, -, d', x', hdst₁, e, he₁, -, hway, rfl, rfl⟩ := Fs.renamePlan_eq_ok.mp h.plan
  have hparent : t₁.shape (d' ++ [x']).dropLast = some .dir := by
    rw [List.dropLast_concat, hdst₁.dir]
  have hapart : d ++ [x] ≠ d' ++ [x'] → Apart (d ++ [x]) (d' ++ [x']) := fun hne =>
    ⟨by simp, by simp, (hway hne).1, (hway hne).2.1⟩
  cases h.cleared with
  | kept _ =>
    by_cases heq : d ++ [x] = d' ++ [x']
    · have hsame : Fs.renamed os (d ++ [x]) (d' ++ [x']) t = t := if_pos heq
      rw [hsame, heq]
      exact moved_self os _ t
    · exact moved_renamed (hapart heq) hparent
  | @removed d₁ x₁ _ _ hnames _ _ =>
    obtain ⟨rfl, rfl⟩ := hnames.unique (hdst₁.mono h.cleared.fewer)
    have hgone : ((t.prune (d₁ ++ [x₁])).touch os d₁).look (d₁ ++ [x₁]) = none := by
      rw [Tree.look_touch_of_ne (by simp), Tree.look_prune_below (by simp) (List.prefix_refl _)]
    have hne : d ++ [x] ≠ d₁ ++ [x₁] := by
      intro heq
      rw [heq, hgone] at he₁
      cases he₁
    refine Moved.of_cleared (hapart hne) ?_
    rw [List.dropLast_concat]
    exact moved_renamed (hapart hne) hparent

/-- **A rename that succeeds** moves the entry its path names, with all below it, to the
    location its new path names, and changes nothing else. -/
theorem rename_effect {u : Unit} (h : srv.rename os from_ to_ replace t = .ok u t') :
    ∃ fromPath toPath d x d' x', srv.Joins from_ fromPath ∧ srv.Joins to_ toPath ∧
      Names t fromPath d x ∧ Names t toPath d' x' ∧ (∃ e, t.look (d ++ [x]) = some e) ∧
      Effect os t t' fromPath toPath replace (d ++ [x]) (d' ++ [x']) := by
  cases srv.renames os t from_ to_ replace with
  | refused herr =>
    rw [herr] at h
    cases h
  | cleared _ _ _ _ herr =>
    rw [herr] at h
    cases h
  | emptied _ _ _ _ herr =>
    rw [herr] at h
    cases h
  | @planned fp tp t₁ src dst hplans =>
    -- only a rename whose move was planned succeeds
    rw [hplans.run] at h
    cases h
    obtain ⟨q, hfrom⟩ := hplans.existing
    obtain ⟨q', hto⟩ := hplans.forNew
    obtain ⟨d, x, hsrc₁, d', x', hdst₁, e, he₁, -, -, rfl, rfl⟩ :=
      Fs.renamePlan_eq_ok.mp hplans.plan
    -- the tree without the target names no more than the tree with it
    have hsrc := hsrc₁.mono hplans.cleared.fewer
    have hdst := hdst₁.mono hplans.cleared.fewer
    obtain ⟨e₀, he₀, -⟩ := hsrc.entry_of_resolve hfrom.resolves
    have hmoved := hplans.moved
    refine ⟨fp, tp, d, x, d', x', hfrom.joins, hto.joins, hsrc, hdst, ⟨e₀, he₀⟩, hmoved,
      fun hne hway d₁ x₁ hnames => ?_, fun hsway hdway d₁ x₁ hnames => ?_, fun hr q hl => ?_,
      fun _ hne e he hd => hmoved.not_has hne he hd⟩
    · have hnested := hmoved.apart hne
      exact hmoved.names_source ⟨by simp, by simp, hnested.1, hnested.2⟩ hsrc rfl hway hnames
    · exact hmoved.names_target (by simp) (by simp) hnames hsway hdway
    · exact hplans.cleared.keep hr ⟨q, hl⟩

/-- A file takes the place of a directory with a file in it. -/
theorem rename_f_to_d :
    serverAtR.rename (.atTime ⟨1, 0⟩) "f" "d" true treeToRename
      = .ok () (final (serverAtR.rename (.atTime ⟨1, 0⟩) "f" "d" true treeToRename)) :=
  eq_ok_of_outcome (by decide)

/-- A populated directory is replaced, its parent directory is stamped, and a link to nowhere
    is replaced although `replace_if_exists` is false. -/
theorem rename_destroys_populated :
    (∃ t', serverAtR.rename (.atTime ⟨1, 0⟩) "f" "d" true treeToRename = .ok () t' ∧
      treeToRename.shape (["r", "d"].map Utf8.encode) = some .dir ∧
      treeToRename.children (["r", "d"].map Utf8.encode) ≠ [] ∧
      t'.look (["r"].map Utf8.encode) ≠ treeToRename.look (["r"].map Utf8.encode)) ∧
    ∃ t', serverAtR.rename (.atTime ⟨1, 0⟩) "f" "l" false treeToRename = .ok () t' ∧
      treeToRename.look (["r", "l"].map Utf8.encode) ≠ none := by
  refine ⟨⟨_, rename_f_to_d, by decide, by decide, by decide⟩, ?_⟩
  exact ⟨_, eq_ok_of_outcome (by decide), by decide⟩

/-- A file replaces a directory with a file in it. -/
theorem rename_effect_f_to_d :
    ∃ fromPath toPath d x d' x', serverAtR.Joins "f" fromPath ∧ serverAtR.Joins "d" toPath ∧
      Names treeToRename fromPath d x ∧ Names treeToRename toPath d' x' ∧
      (∃ e, treeToRename.look (d ++ [x]) = some e) ∧
      Effect (.atTime ⟨1, 0⟩) treeToRename
        (final (serverAtR.rename (.atTime ⟨1, 0⟩) "f" "d" true treeToRename)) fromPath toPath true
        (d ++ [x]) (d' ++ [x']) :=
  rename_effect rename_f_to_d

end RpcServer

end Netfilum
