import Netfilum.Server.Changes
import Netfilum.Server.Rename

namespace Netfilum

open Posix Program Rust

/-!
# Renaming on a plain tree

`Rename` clears its target before it moves the entry.  On a plain tree, and unless one entry
lies in the other, it does what its command does, and is refused without any change where the
command is.

* `Plain.plan`, `Plain.plans` — what the abstract tree allows goes as planned.
* `Plain.renamable_of_plans` — and nothing else does.
* `Plain.moved` — what a move leaves.
-/

variable {srv : RpcServer} {os : Os} {t t' t₁ : Tree} {from_ to_ : String} {path : PathBuf}
  {q d v : Loc} {x : Name} {rel src dst : List Name} {replace : Bool}

namespace RpcServer

/-- A path to something below the root has no trailing slash. -/
theorem trailing_join (hne : rel ≠ []) : (srv.root.join rel).trailing = false := by
  unfold PathBuf.join
  rw [if_neg hne]

/-- The path of a node below the root names its entry. -/
theorem Plain.names_of_node (h : srv.Plain t) (hne : rel ≠ [])
    (hdir : h.view.node rel.dropLast = some .dir) :
    ∃ d x, Names t (srv.root.join rel) d x ∧ d ++ [x] = srv.rootReal ++ rel := by
  rcases List.eq_nil_or_concat rel with rfl | ⟨up, x, rfl⟩
  · exact absurd rfl hne
  rw [List.concat_eq_append] at hdir ⊢
  rw [List.dropLast_concat] at hdir
  exact ⟨_, x, h.names_iff.mpr ⟨rfl, rfl, h.node_eq_dir_iff.mp hdir⟩, List.append_assoc _ _ _⟩

/-- A move to a free place is planned. -/
theorem Plain.plan (h : srv.Plain t) (hs : h.view.node src ≠ none) (hm : h.view.Movable src dst)
    (hfree : h.view.node dst = none) :
    Fs.renamePlan (srv.root.join src) (srv.root.join dst) t
      = .ok (srv.rootReal ++ src, srv.rootReal ++ dst) := by
  obtain ⟨d, x, hsrc, hsloc⟩ := h.names_of_node hm.src_ne (h.view.closed src hm.src_ne hs)
  obtain ⟨d', x', hdst, hdloc⟩ := h.names_of_node hm.ne hm.parent
  have hlook : t.look (srv.rootReal ++ dst) = none :=
    Tree.shape_eq_none_iff.mp (h.node_eq_none_iff.mp hfree)
  obtain ⟨e, he⟩ : ∃ e, t.look (d ++ [x]) = some e := by
    refine Option.ne_none_iff_exists'.mp fun hnone => hs ?_
    rw [h.node_eq_none_iff, Tree.shape_eq_none_iff, ← hsloc, hnone]
  -- what exists does not lie below what does not
  have habove : ¬ dst <+: src := fun hp => hs <| by
    by_cases heq : dst = src
    · rw [← heq, hfree]
    · exact FileTree.node_below hp heq (by rw [hfree]; simp)
  refine Fs.renamePlan_eq_ok.mpr ⟨d, x, hsrc, d', x', hdst, e, he, ?_, fun _ => ⟨?_, ?_, ?_⟩,
    hsloc, hdloc⟩
  · rw [trailing_join hm.src_ne, trailing_join hm.ne]
    simp
  · rw [List.prefix_append_right_inj]
    exact hm.apart
  · rw [List.prefix_append_right_inj]
    exact habove
  · intro e' he'
    rw [hlook] at he'
    cases he'

/-- Away from both entries a move leaves every body alone. -/
theorem bodyAt_moved {src dst : Loc} (h : Moved os src dst t t') (hs : ¬ src <+: v)
    (hd : ¬ dst <+: v) : bodyAt t' v = bodyAt t v := by
  by_cases hne : src = dst
  · rw [h.same hne]
  by_cases hparent : v = src.dropLast ∨ v = dst.dropLast
  · rw [bodyAt, h.stamped hne v hparent, Option.map_map]
    rfl
  · obtain ⟨hns, hnd⟩ := not_or.mp hparent
    exact bodyAt_congr (h.others v hs hd hns hnd)

/-- What a move leaves. -/
theorem Plain.moved (h : srv.Plain t) (hm : h.view.Movable src dst)
    (hmoved : Moved os (srv.rootReal ++ src) (srv.rootReal ++ dst) t t')
    (hnul : ∀ n ∈ dst, n.contains 0 = false) (hexp : srv.Exported t') :
    ∃ h' : srv.Plain t', h'.view = h.view.move src dst := by
  have hne : srv.rootReal ++ src ≠ srv.rootReal ++ dst := fun heq =>
    hm.apart (append_rel_inj.mp heq ▸ List.prefix_refl _)
  refine h.of_stands hexp (fun r => ?_) fun r hr => ?_
  · rw [FileTree.node_move hm]
    by_cases hd : dst <+: r
    · obtain ⟨s, rfl⟩ := hd
      rw [if_pos (List.prefix_append dst s), List.drop_left]
      have hbody : bodyAt t' (srv.rootReal ++ (dst ++ s))
          = bodyAt t (srv.rootReal ++ (src ++ s)) := by
        obtain ⟨f, htarget⟩ := hmoved.look_target s
        rw [bodyAt, bodyAt, ← List.append_assoc, ← List.append_assoc, htarget, Option.map_map]
        rfl
      rw [hbody]
      exact h.stands (src ++ s)
    · rw [if_neg hd]
      by_cases hs : src <+: r
      · rw [if_pos hs, bodyAt, hmoved.source hne _ ((List.prefix_append_right_inj _).mpr hs)]
        exact ⟨rfl, fun target hlink => by cases hlink⟩
      · rw [if_neg hs, bodyAt_moved hmoved (fun hp => hs ((List.prefix_append_right_inj _).mp hp))
          fun hp => hd ((List.prefix_append_right_inj _).mp hp)]
        exact h.stands r
  · rw [FileTree.node_move hm] at hr
    split at hr
    · rename_i hd
      obtain ⟨s, rfl⟩ := hd
      rw [List.drop_left] at hr
      intro n hn
      rcases List.mem_append.mp hn with hn | hn
      · exact hnul n hn
      · exact h.nul_of_node hr n (List.mem_append_right _ hn)
    · split at hr
      · exact absurd rfl hr
      · exact h.nul_of_node hr

/-- The target of a rename, where it is one of the abstract tree. -/
theorem Plain.leads_target (h : srv.Plain t) :
    (∃ q, Fs.Leads t (srv.root.join dst) q) ↔ h.view.node dst ≠ none := by
  rw [ne_eq, h.node_eq_none_iff]
  constructor
  · rintro ⟨q, hl⟩
    obtain ⟨rfl, hs⟩ := h.leads_iff.mp hl
    exact hs
  · exact fun hs => ⟨_, h.leads_iff.mpr ⟨rfl, hs⟩⟩

/-- The way to a node leads below it only where the way to the exported root does. -/
theorem Plain.passes_of_severs (h : srv.Plain t) (hne : dst ≠ [])
    (hsevers : Severs t (srv.root.join dst) (srv.rootReal ++ dst)) :
    ∃ v ∈ passes t srv.root, srv.rootReal ++ dst <+: v ∧ v ≠ srv.rootReal ++ dst := by
  obtain ⟨v, hv, hbelow, hneq⟩ := hsevers
  refine ⟨v, ?_, hbelow, hneq⟩
  obtain ⟨⟨n, hn⟩, -⟩ := walk_of_resolve h.exported.1.2
  unfold approach PathBuf.join at hv
  rw [if_neg hne, List.dropLast_append_of_ne_nil hne, List.map_append, visits_append _ _ _ hn,
    List.mem_append] at hv
  rcases hv with hv | hv
  · unfold passes PathBuf.todo
    rw [visits_append _ _ _ hn]
    exact List.mem_append_left _ hv
  · -- from the exported root the way leads straight down
    have hlink : ∀ u, u <+: srv.rootReal ++ dst.dropLast →
        ∀ tgt, t.shape u ≠ some (.symlink tgt) := by
      intro u hu tgt hs
      rcases List.prefix_or_prefix_of_prefix hu (List.prefix_append srv.rootReal dst.dropLast) with
        habove | ⟨rel, rfl⟩
      · rcases eq_or_ne u srv.rootReal with rfl | hneu
        · rw [h.exported.2] at hs
          cases hs
        · rw [Tree.shape_above habove hneu (by rw [h.exported.2]; simp)] at hs
          cases hs
      · exact h.noLinks rel tgt hs
    have hdown := visits_names n srv.rootReal dst.dropLast false hlink v
      (by rwa [if_neg Bool.false_ne_true, List.append_nil])
    have hpre := (List.prefix_append_right_inj _).mp (hbelow.trans hdown)
    exact absurd hpre (not_prefix_dropLast hne)

/-- Without harm to the exported root, a directory that is to be replaced does not stay. -/
theorem Plain.not_severs (h : srv.Plain t) {q q' : Loc} {fp : PathBuf} (hne : dst ≠ [])
    (hfrom : srv.Existing t from_ fp q) (hto : srv.ForNew t to_ (srv.root.join dst) q')
    (hnul : (srv.root.join dst).hasNul = false)
    (hno : ¬ srv.Uproots os t (.rename from_ to_ true)) :
    ¬ Severs t (srv.root.join dst) (srv.rootReal ++ dst) := by
  intro hsevers
  obtain ⟨v, hv, hbelow, hneq⟩ := h.passes_of_severs hne hsevers
  have hdir : t.shape (srv.rootReal ++ dst) = some .dir :=
    Tree.shape_above hbelow (Ne.symm hneq) ((route_passes h.exported.1.2).exist v hv)
  have hleads : Fs.Leads t (srv.root.join dst) (srv.rootReal ++ dst) :=
    ⟨hnul, h.resolve_iff.mpr ⟨rfl, by rw [hdir]; simp⟩⟩
  obtain ⟨d, x, e, hnames, he, hq⟩ := Names.of_resolve hleads.2 (fun hnil => by
    unfold PathBuf.join at hnil
    rw [if_neg hne] at hnil
    exact hne (List.append_eq_nil_iff.mp hnil).2)
  have hloc := h.loc_of_names hne hnames
  exact hno ⟨v, hv, .inl ⟨_, _, _, _, hfrom, hto,
    .below rfl ⟨hleads, hdir, .inr (.inr ⟨d, x, hnames, hloc⟩)⟩ hbelow hneq⟩⟩

/-- **A rename** that the abstract tree allows goes as planned. -/
theorem Plain.plans (h : srv.Plain t) (hsrc : namesOf from_ = some src)
    (hdst : namesOf to_ = some dst) (hr : h.view.Renamable src dst replace)
    (hno : ¬ srv.Uproots os t (.rename from_ to_ replace)) :
    ∃ t₁, srv.Plans os t from_ to_ replace (srv.root.join src) (srv.root.join dst) t₁
      (srv.rootReal ++ src) (srv.rootReal ++ dst) := by
  have hex := h.existing_of_node hsrc hr.source
  obtain ⟨hnorm, hnul⟩ := namesOf_eq_some.mp hdst
  obtain ⟨up, x, rfl⟩ : ∃ up x, dst = up ++ [x] :=
    ⟨_, _, (List.dropLast_append_getLast hr.movable.ne).symm⟩
  have hup := hr.movable.parent
  rw [List.dropLast_concat] at hup
  have hs := h.node_eq_dir_iff.mp hup
  have hto : srv.ForNew t to_ (srv.root.join (up ++ [x])) (srv.rootReal ++ up) :=
    h.forNew_iff.mpr ⟨up, x, hnorm, rfl, rfl, by rw [hs]; simp⟩
  have hnul' : (srv.root.join (up ++ [x])).hasNul = false :=
    hasNul_join.mpr ⟨h.exported.1.1, hnul⟩
  by_cases hfree : h.view.node (up ++ [x]) = none
  · -- nothing is in the way
    refine ⟨t, ⟨_, hex⟩, ⟨_, hto⟩, hnul', .kept fun hl => ?_, h.plan hr.source hr.movable hfree⟩
    exact h.leads_target.mp hl hfree
  · obtain ⟨hreplace, habove⟩ := hr.free.resolve_left hfree
    have hnames : Names t (srv.root.join (up ++ [x])) (srv.rootReal ++ up) x :=
      h.names_iff.mpr ⟨rfl, rfl, hs⟩
    have hleads := h.leads_target.mpr hfree
    have htr : (srv.root.join (up ++ [x])).trailing = true →
        t.shape (srv.rootReal ++ up ++ [x]) = some .dir := fun htr => by
      rw [trailing_join (by simp)] at htr
      cases htr
    have hway : ¬ Severs t (srv.root.join (up ++ [x])) (srv.rootReal ++ up ++ [x]) := by
      rw [List.append_assoc]
      rw [hreplace] at hno
      exact h.not_severs (by simp) hex hto hnul' hno
    have hcleared : Cleared os t (srv.root.join (up ++ [x])) replace _ :=
      .removed hreplace hleads hnames htr hway
    -- the root survives the removal of the target
    have hkeeps : Keeps (passes t srv.root) t
        ((t.prune (srv.rootReal ++ up ++ [x])).touch os (srv.rootReal ++ up)) :=
      Keeps.remove (route_passes h.exported.1.2) fun hv => hno ⟨_, hv, .inl
        ⟨_, _, _, _, hex, hto, .entry hreplace hleads hnames htr hway⟩⟩
    have hexp := h.exported.of_keeps hkeeps
    obtain ⟨h₁, hview⟩ := h.erase hr.movable.ne (List.append_assoc _ _ _).symm hexp
    have hout : ¬ up ++ [x] <+: up := not_concat_prefix up x
    refine ⟨_, ⟨_, hex⟩, ⟨_, hto⟩, hnul', hcleared, h₁.plan ?_ ?_ ?_⟩
    · rw [hview, FileTree.node_erase_apart habove]
      exact hr.source
    · refine ⟨hr.movable.ne, ?_, hr.movable.apart⟩
      rw [hview, List.dropLast_concat, FileTree.node_erase_apart hout, hup]
    · rw [hview, FileTree.node_erase hr.movable.ne, if_pos (List.prefix_refl _)]

/-- A path for something new, where the abstract tree has the directory. -/
theorem Plain.forNew_names (h : srv.Plain t) (hto : srv.ForNew t to_ path q) :
    ∃ dst, normalizeRelativePath to_ = .ok dst ∧ path = srv.root.join dst ∧ dst ≠ [] ∧
      (∀ d x, Names t path d x → d ++ [x] = srv.rootReal ++ dst ∧
        h.view.node dst.dropLast = some .dir) := by
  obtain ⟨up, x, hrel, rfl, rfl, -⟩ := h.forNew_iff.mp hto
  refine ⟨up ++ [x], hrel, rfl, by simp, fun d y hnames => ?_⟩
  obtain ⟨rfl, rfl, hs⟩ := h.names_iff.mp hnames
  rw [List.dropLast_concat]
  exact ⟨List.append_assoc _ _ _, h.node_eq_dir_iff.mpr hs⟩

/-- A rename that goes as planned is one that the abstract tree allows. -/
theorem Plain.renamable_of_plans (h : srv.Plain t) {fp tp : PathBuf} {src' dst' : Loc}
    (hplans : srv.Plans os t from_ to_ replace fp tp t₁ src' dst')
    (hnested : ∀ src dst, namesOf from_ = some src → namesOf to_ = some dst →
      ¬ Nested h.view (.rename src dst replace)) :
    ∃ src dst, namesOf from_ = some src ∧ namesOf to_ = some dst ∧
      h.view.Renamable src dst replace := by
  obtain ⟨q, hfrom⟩ := hplans.existing
  obtain ⟨q', hto⟩ := hplans.forNew
  obtain ⟨src, hsrc, rfl, rfl, hnode⟩ := h.existing_names.mp hfrom
  obtain ⟨dst, hnorm, rfl, hne, htarget⟩ := h.forNew_names hto
  have hdst : namesOf to_ = some dst := namesOf_eq_some.mpr ⟨hnorm, (hasNul_join.mp hplans.nul).2⟩
  obtain ⟨d, x, hs₁, d', x', hd₁, e, he, htr, hapart, rfl, rfl⟩ :=
    Fs.renamePlan_eq_ok.mp hplans.plan
  have hfewer := hplans.cleared.fewer
  obtain ⟨hdloc, hparent⟩ := htarget d' x' (hd₁.mono hfewer)
  -- a target that was there is cleared, and nested in nothing
  have hclear : h.view.node dst ≠ none → replace = true ∧ ¬ src <+: dst ∧ ¬ dst <+: src := by
    intro hex
    have hreplace : replace = true := by
      cases hplans.cleared with
      | kept hno => exact absurd (h.leads_target.mpr hex) hno
      | removed hreplace _ _ _ _ => exact hreplace
    have hno := hnested src dst hsrc hdst
    exact ⟨hreplace, fun hp => hno ⟨hreplace, hne, hnode, hex, .inl hp⟩,
      fun hp => hno ⟨hreplace, hne, hnode, hex, .inr hp⟩⟩
  -- the source is named by its path, or is the root
  have hsloc : d ++ [x] = srv.rootReal ++ src := by
    rcases eq_or_ne src [] with rfl | hsne
    · have hdir : e.shape = .dir := by
        by_contra hdir
        refine htr ⟨hdir, .inl ?_⟩
        unfold PathBuf.join
        rw [if_pos rfl]
      obtain ⟨e', he', hself⟩ := h.names_root (hs₁.mono hfewer)
      have hshape := hfewer _ _ (Tree.shape_of_look he)
      rw [Tree.shape_of_look he', hdir] at hshape
      rw [List.append_nil]
      exact hself fun target hlink => by rw [hlink] at hshape; cases hshape
    · exact (h.loc_of_names hsne (hs₁.mono hfewer)).symm
  have hout : ¬ src <+: dst := by
    intro hp
    by_cases heq : src = dst
    · exact (hclear (heq ▸ hnode)).2.1 hp
    · refine (hapart ?_).1 ?_
      · rw [hsloc, hdloc, ne_eq, append_rel_inj]
        exact heq
      · rw [hsloc, hdloc, List.prefix_append_right_inj]
        exact hp
  refine ⟨src, dst, hsrc, hdst, hnode, ⟨hne, hparent, hout⟩, ?_⟩
  by_cases hex : h.view.node dst = none
  · exact .inl hex
  · exact .inr ⟨(hclear hex).1, (hclear hex).2.2⟩

/-- A rename that the abstract tree does not allow is refused, and changes nothing. -/
theorem Plain.rename_refused (h : srv.Plain t) (os : Os)
    (hnested : ∀ src dst, namesOf from_ = some src → namesOf to_ = some dst →
      ¬ Nested h.view (.rename src dst replace))
    (hsafe : ¬ srv.Uproots os t (.rename from_ to_ replace))
    (hno : ¬ ∃ src dst, namesOf from_ = some src ∧ namesOf to_ = some dst ∧
      h.view.Renamable src dst replace) :
    ∃ e, srv.rename os from_ to_ replace t = .error e t := by
  cases srv.renames os t from_ to_ replace with
  | refused herr => exact ⟨_, herr⟩
  | cleared hfrom hto hcleared _ herr =>
    -- the target was not cleared
    cases hcleared with
    | kept _ => exact ⟨_, herr⟩
    | removed hreplace hleads hnames _ _ =>
      -- it could have been, and the move would have been allowed
      obtain ⟨src, hsrc, rfl, rfl, hnode⟩ := h.existing_names.mp hfrom
      obtain ⟨dst, hnorm, rfl, hne, htarget⟩ := h.forNew_names hto
      have hnul : PathBuf.hasNul (srv.root.join dst) = false := hleads.choose_spec.1
      have hdst : namesOf to_ = some dst := namesOf_eq_some.mpr ⟨hnorm, (hasNul_join.mp hnul).2⟩
      have hex := h.leads_target.mp hleads
      have hfree := hnested src dst hsrc hdst
      refine absurd ⟨src, dst, hsrc, hdst, hnode, ⟨hne, (htarget _ _ hnames).2, fun hp => ?_⟩,
        .inr ⟨hreplace, fun hp => ?_⟩⟩ hno
      · exact hfree ⟨hreplace, hne, hnode, hex, .inl hp⟩
      · exact hfree ⟨hreplace, hne, hnode, hex, .inr hp⟩
  | emptied hfrom hto hreplace hemptied _ =>
    -- a directory below the root goes with its entry
    subst hreplace
    obtain ⟨dst, -, rfl, hne, -⟩ := h.forNew_names hto
    have hleads := hemptied.empties.leads
    obtain ⟨rfl, -⟩ := h.leads_iff.mp hleads
    refine absurd (hemptied.remains.resolve_left ?_) (h.not_severs hne hfrom hto hleads.1 hsafe)
    rintro (hnil | ⟨htr, -⟩)
    · unfold PathBuf.join at hnil
      rw [if_neg hne] at hnil
      exact hne (List.append_eq_nil_iff.mp hnil).2
    · rw [trailing_join hne] at htr
      cases htr
  | planned hplans => exact absurd (h.renamable_of_plans hplans hnested) hno

/-- `rename` does what its command does. -/
theorem does_rename (h : srv.Plain t) (os : Os)
    (hnested : ¬ Nested h.view (Request.command (.rename from_ to_ replace)))
    (hno : ¬ srv.Uproots os t (.rename from_ to_ replace)) :
    Does h os.maxBytes (Request.command (.rename from_ to_ replace))
      ((do srv.rename os from_ to_ replace; return .empty : ServerM Response) t) := by
  have hnested' : ∀ src dst, namesOf from_ = some src → namesOf to_ = some dst →
      ¬ Nested h.view (.rename src dst replace) := fun src dst hsrc hdst => by
    rw [Request.command, onPath_of_some hsrc, onPath_of_some hdst] at hnested
    exact hnested
  by_cases hr : ∃ src dst, namesOf from_ = some src ∧ namesOf to_ = some dst ∧
      h.view.Renamable src dst replace
  · obtain ⟨src, dst, hsrc, hdst, hr⟩ := hr
    obtain ⟨t₁, hplans⟩ := h.plans hsrc hdst hr hno
    have hexp := exported_step h.exported hno
    have hok : (do srv.rename os from_ to_ replace; return .empty : ServerM Response) t
        = .ok .empty _ := bind_of_ok hplans.run
    have hdispatch : srv.dispatch os (.rename from_ to_ replace) t = _ := hok
    rw [hdispatch, final_ok] at hexp
    rw [Request.command, onPath_of_some hsrc, onPath_of_some hdst]
    refine does_ok h hok ?_ .done
      (h.moved hr.movable hplans.moved (namesOf_eq_some.mp hdst).2 hexp)
    simp only [FileTree.run]
    exact if_pos hr
  · obtain ⟨e, herr⟩ := h.rename_refused os hnested' hno hr
    refine does_refused h (bind_of_error herr) ?_
    rw [Request.command]
    cases hsrc : namesOf from_ with
    | none => rw [onPath_of_none hsrc]; rfl
    | some src =>
      rw [onPath_of_some hsrc]
      cases hdst : namesOf to_ with
      | none => rw [onPath_of_none hdst]; rfl
      | some dst =>
        rw [onPath_of_some hdst]
        simp only [FileTree.run]
        exact if_neg fun hallowed => hr ⟨src, dst, hsrc, hdst, hallowed⟩

end RpcServer

end Netfilum
