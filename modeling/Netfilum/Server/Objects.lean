import Netfilum.Posix.Objects
import Netfilum.Server.Takes

namespace Netfilum

open Posix Program Rust

/-!
# Which object a path stands for

The object that the server resolves a path to, and what a request does to it.

* `object_of_untouched` — a path keeps its object if the request takes none of the entries
  the path passes through.
* `not_has_of_removes` — an object at or below a removed entry is gone for good.
* `object_of_follows` — after a rename the new path stands for what the old one stood for,
  if it still leads to the entry that was moved.
-/

variable {srv : RpcServer} {os : Os} {t t' : Tree} {relative : String} {path : PathBuf}
  {q v : Loc} {V : List Loc} {e : Entry}

namespace RpcServer

/-- The object that the server resolves a path to. -/
def object (srv : RpcServer) (t : Tree) (relative : String) : Option Nat :=
  match srv.resolveExisting relative t with
  | .error _ _ => none
  | .ok path _ =>
    match Fs.metadata path t with
    | .error _ _    => none
    | .ok metadata _ => some metadata.ino

/-- The locations that the path passes through. -/
def route (srv : RpcServer) (t : Tree) (relative : String) : List Loc :=
  match normalizeRelativePath relative with
  | .error _ => []
  | .ok rel  => passes t (srv.root.join rel)

/-- The object of a path is that of the entry to which it leads. -/
theorem object_eq_some_iff {i : Nat} : srv.object t relative = some i ↔
    ∃ path q e, srv.Existing t relative path q ∧ t.look q = some e ∧ e.ino = i := by
  unfold object
  constructor
  · intro h
    cases hr : srv.resolveExisting relative t with
    | error error t' => rw [hr] at h; cases h
    | ok path t' =>
      rw [hr] at h
      obtain ⟨⟨q, hex⟩, rfl⟩ := resolveExisting_eq_ok.mp hr
      cases hm : Fs.metadata path t' with
      | error error t'' => simp [hm] at h
      | ok e t'' =>
        simp only [hm, Option.some.injEq] at h
        obtain ⟨-, ⟨q', hres, he⟩, -⟩ := Fs.metadata_eq_ok.mp hm
        rw [hex.resolves] at hres
        cases hres
        exact ⟨path, q, e, hex, he, h⟩
  · rintro ⟨path, q, e, hex, he, rfl⟩
    rw [resolveExisting_eq_ok.mpr ⟨⟨q, hex⟩, rfl⟩]
    simp only [Fs.metadata_eq_ok.mpr ⟨hex.nul, ⟨q, hex.resolves, he⟩, rfl⟩]

/-- What can be asked for its attributes has an object. -/
theorem object_of_attr {attr : FileAttr} (hjoins : srv.Joins relative path)
    (h : attrForPath path t = .ok attr t')
    (hwithin : ∀ q, resolve t path = .ok q → srv.rootReal <+: q) :
    ∃ i, srv.object t' relative = some i := by
  obtain ⟨⟨q, e, hl, he, -⟩, rfl⟩ := attrForPath_eq_ok.mp h
  exact ⟨e.ino, object_eq_some_iff.mpr ⟨path, q, e, ⟨hjoins, hl.1, hl.2, hwithin q hl.2⟩, he, rfl⟩⟩

/-- What `stat_path` succeeds on has an object. -/
theorem object_of_statPath {attr : FileAttr} (h : srv.statPath relative t = .ok attr t') :
    ∃ i, srv.object t' relative = some i := by
  obtain ⟨⟨path, q, e, hex, he, -⟩, rfl⟩ := statPath_eq_ok.mp h
  exact ⟨e.ino, object_eq_some_iff.mpr ⟨path, q, e, hex, he, rfl⟩⟩

/-- What `create_entry` returns has an object. -/
theorem object_of_createEntry {attr : FileAttr} {kind : EntryKind}
    (h : srv.createEntry os relative kind t = .ok attr t') :
    ∃ i, srv.object t' relative = some i := by
  obtain ⟨path, t1, hpath, h1⟩ := bind_eq_ok.mp h
  obtain ⟨⟨q, hnew⟩, rfl⟩ := resolveForNewPath_eq_ok.mp hpath
  cases kind with
  | file =>
    obtain ⟨_, t2, hcreate, hattr⟩ := bind_eq_ok.mp h1
    obtain ⟨-, d, x, hnames, htr, hfree, rfl⟩ := Fs.createNew_eq_ok.mp (io_eq_ok.mp hcreate)
    refine object_of_attr hnew.joins hattr fun q' hres => ?_
    rw [resolve_touch,
      hnames.resolve_insert hfree (.inr ⟨rfl, htr⟩)] at hres
    cases hres
    exact hnew.within_entry hnames
  | directory =>
    obtain ⟨_, t2, hcreate, hattr⟩ := bind_eq_ok.mp h1
    obtain ⟨-, d, x, hnames, hfree, rfl⟩ := Fs.createDir_eq_ok.mp (io_eq_ok.mp hcreate)
    refine object_of_attr hnew.joins hattr fun q' hres => ?_
    rw [resolve_touch, hnames.resolve_insert hfree (.inl rfl)] at hres
    cases hres
    exact hnew.within_entry hnames

/-- The route of a path that leads to something is what it passes. -/
theorem Existing.route_eq (h : srv.Existing t relative path q) :
    srv.route t relative = passes t path := by
  obtain ⟨rel, hrel, rfl⟩ := h.joins
  unfold route
  rw [hrel]

/-- The path of an object that looks the same where the path passes. -/
theorem Existing.object_of_keeps (h : srv.Existing t relative path q) (he : t.look q = some e)
    (hkeeps : Keeps ([] :: passes t path) t t') : srv.object t' relative = some e.ino := by
  have hroute : Keeps (passes t path) t t' := fun v hv => hkeeps v (List.mem_cons_of_mem _ hv)
  have hq : q ∈ [] :: passes t path := by
    rcases eq_or_ne q [] with rfl | hne
    · exact List.mem_cons_self
    · exact List.mem_cons_of_mem _ (mem_passes h.resolves hne)
  -- the path leads to the same place, and the object there is the same
  have htag := hkeeps q hq
  rw [Tree.tag_of_look he] at htag
  obtain ⟨e', he', -, hino⟩ := Tree.tag_eq_some_iff.mp htag
  have hex : srv.Existing t' relative path q :=
    ⟨h.joins, h.nul, by rw [hroute.resolve.1, h.resolves], h.within⟩
  exact object_eq_some_iff.mpr ⟨path, q, e', hex, he', hino⟩

/-! ### No object comes back -/

/-- Two steps bring back no object if neither does. -/
theorem descends_bind {α β : Type} {x : ServerM α} {f : α → ServerM β}
    (hx : Respects Descends x t) (hf : ∀ a t', x t = .ok a t' → Respects Descends (f a) t') :
    Respects Descends (x >>= f) t := by
  refine Respects.bind ?_ hx hf
  exact Descends.trans

/-- A quiet step brings back no object. -/
theorem descends_of_quiet {ε α : Type} {x : EStateM ε Tree α} (h : Quiet x) :
    Respects Descends x t := h.respects Descends.refl t

/-- A call brings back no object if its effect does not. -/
theorem descends_call {p : PathBuf} {f : Tree → Except Errno Tree}
    (h : ∀ t', Fs.effect p f t = .ok () t' → Descends t t') : Respects Descends (Fs.effect p f) t :=
  .attempt Descends.refl fun _ t' hok => h t' (attempt_of_ok hok)

/-- `remove_file` brings back no object. -/
theorem descends_removeFile : Respects Descends (srv.removeFile os relative) t := by
  refine atomic_removeFile.respects Descends.refl fun u t' hok => ?_
  obtain ⟨-, -, d, x, -, -, -, -, -, -, rfl⟩ := removeFile_eq_ok.mp hok
  exact Descends.remove t os d x

/-- `remove_dir` brings back no object. -/
theorem descends_removeDir : Respects Descends (srv.removeDir os relative) t := by
  refine atomic_removeDir.respects Descends.refl fun u t' hok => ?_
  obtain ⟨-, -, d, x, -, -, -, -, -, -, rfl⟩ := removeDir_eq_ok.mp hok
  exact Descends.remove t os d x

/-- `create_entry` makes a new object, and brings back none. -/
theorem descends_createEntry (kind : EntryKind) :
    Respects Descends (srv.createEntry os relative kind) t := by
  refine descends_bind (descends_of_quiet quiet_resolveForNewPath) fun p t1 _ => ?_
  cases kind with
  | file =>
    refine descends_bind (.mapError (descends_call fun t' hok => ?_)) fun _ t2 _ =>
      descends_of_quiet (quiet_attrForPath p)
    obtain ⟨-, d, x, -, -, -, rfl⟩ := Fs.createNew_eq_ok.mp hok
    exact (Descends.insert t1 d x _ _).trans (.touch _ os d)
  | directory =>
    refine descends_bind (.mapError (descends_call fun t' hok => ?_)) fun _ t2 _ =>
      descends_of_quiet (quiet_attrForPath p)
    obtain ⟨-, d, x, -, -, rfl⟩ := Fs.createDir_eq_ok.mp hok
    exact (Descends.insert t1 d x _ _).trans (.touch _ os d)

/-- Clearing the target brings back no object. -/
theorem Cleared.descends {replace : Bool} (h : Cleared os t path replace t') : Descends t t' := by
  cases h with
  | kept _ => exact .refl t
  | @removed d x _ _ _ _ _ => exact .remove t os d x

/-- `fs::rename` brings back no object. -/
theorem descends_fsRename {fp tp : PathBuf} : Respects Descends (Fs.rename os fp tp) t := by
  refine .attempt Descends.refl fun u t' hok => ?_
  obtain ⟨-, -, src, dst, -, rfl⟩ := Fs.rename_eq_ok.mp (attempt_of_ok hok)
  exact Descends.renamed t os src dst

/-- `rename` brings back no object. -/
theorem descends_rename {from_ to_ : String} {replace : Bool} :
    Respects Descends (srv.rename os from_ to_ replace) t :=
  rename_induct (Descends t) (.refl t) (fun _ _ _ _ _ _ _ hcleared => hcleared.descends)
    (fun _ _ _ _ r _ _ _ _ => .emptied t os r)
    fun _ _ _ src dst _ h => h.trans (.renamed _ os src dst)

/-! ### Objects that are removed -/

/-- What a rename clears is gone, whatever becomes of the move. -/
theorem not_has_of_clears {from_ to_ : String} {replace : Bool} {fp tp : PathBuf} {q' : Loc}
    (hfrom : srv.Existing t from_ fp q) (hto : srv.ForNew t to_ tp q')
    (h : Clears t tp replace v) (he : e ∈ t.entries) (hv : v <+: e.loc) :
    ¬ (final (srv.rename os from_ to_ replace t)).Has e.ino := by
  obtain ⟨rfl, hleads⟩ := h.leads
  have hkeep : true = false → ¬ ∃ r, Fs.Leads t tp r := fun hr => by cases hr
  rcases clearing os hkeep with ⟨t₁, hcleared⟩ | ⟨-, r, hemptied⟩
  · have hgone : ¬ t₁.Has e.ino := by
      cases hcleared with
      | kept hno => exact absurd hleads hno
      | removed _ _ hnames htr _ =>
        exact not_has_remove he ((h.at_or_below hnames htr).trans hv) os
    -- no object comes back: the move creates none
    have hlt : e.ino < t₁.next := Nat.lt_of_lt_of_le (t.inos_lt e he) hcleared.descends.next_le
    have hdesc : Descends t₁ (final (srv.rename os from_ to_ true t)) := by
      rw [rename_apply os hfrom hto hkeep, bind_of_ok hcleared.run]
      exact Respects.mapError descends_fsRename
    exact hdesc.not_has hlt hgone
  · obtain ⟨error, hrename⟩ := hemptied.rename os hfrom hto
    obtain ⟨hbelow, hne⟩ := h.below_emptied hemptied
    rw [hrename]
    refine not_has_emptied he (hbelow.trans hv) (fun hloc => hne ?_) os
    rw [hloc] at hv
    exact hv.eq_of_length_le hbelow.length_le

/-- An object at or below an entry that the request removes is gone. -/
theorem not_has_of_removes {request : Request} (h : srv.Removes t v request) (he : e ∈ t.entries)
    (hv : v <+: e.loc) : ¬ (final (srv.dispatch os request t)).Has e.ino := by
  cases request with
  | removeFile relative =>
    obtain ⟨p, q, d, x, e', hex, hnames, he', hdir, htr, rfl⟩ := h
    have hrun : srv.removeFile os relative t = .ok () ((t.prune (d ++ [x])).touch os d) :=
      removeFile_eq_ok.mpr ⟨p, q, d, x, e', hex, hnames, he', hdir, htr, rfl⟩
    show ¬ (final ((do srv.removeFile os relative; return Response.empty) t)).Has e.ino
    rw [bind_of_ok hrun]
    exact not_has_remove he hv os
  | removeDir relative =>
    obtain ⟨p, q, d, x, e', hex, hnames, he', hdir, hempty, rfl⟩ := h
    have hrun : srv.removeDir os relative t = .ok () ((t.prune (d ++ [x])).touch os d) :=
      removeDir_eq_ok.mpr ⟨p, q, d, x, e', hex, hnames, he', hdir, hempty, rfl⟩
    show ¬ (final ((do srv.removeDir os relative; return Response.empty) t)).Has e.ino
    rw [bind_of_ok hrun]
    exact not_has_remove he hv os
  | rename from_ to_ replace =>
    obtain ⟨fp, tp, q, q', hfrom, hto, hclears⟩ := h
    show ¬ (final ((do srv.rename os from_ to_ replace; return Response.empty) t)).Has e.ino
    rw [final_then]
    exact not_has_of_clears hfrom hto hclears he hv
  | _ => exact absurd h id

/-! ### Objects that stay -/

/-- No request takes the root of the tree. -/
theorem takes_ne_root {request : Request} (h : srv.Takes os t v request) : v ≠ [] := by
  rcases h with h | h
  · cases request with
    | removeFile relative =>
      obtain ⟨p, q, d, x, e, -, -, -, -, -, rfl⟩ := h
      simp
    | removeDir relative =>
      obtain ⟨p, q, d, x, e, -, -, -, -, -, rfl⟩ := h
      simp
    | rename from_ to_ replace =>
      obtain ⟨fp, tp, q, q', -, -, hclears⟩ := h
      cases hclears with
      | entry _ _ _ _ _ => simp
      | below _ _ hv hne =>
        rintro rfl
        exact hne (List.prefix_nil.mp hv).symm
    | _ => exact absurd h id
  · cases request with
    | rename from_ to_ replace =>
      obtain ⟨fp, tp, t₁, src, dst, hplans, -, hv⟩ := h
      obtain ⟨d, x, -, d', x', -, e, -, -, -, rfl, rfl⟩ := Fs.renamePlan_eq_ok.mp hplans.plan
      rcases hv with rfl | rfl <;> simp
    | _ => exact absurd h id

/-- The root of the tree may be added to a route. -/
theorem Route.cons_root (hV : Route t V) : Route t ([] :: V) := by
  refine ⟨List.forall_mem_cons.mpr ⟨by simp, hV.exist⟩, fun v hv u hu hne => ?_⟩
  rcases List.mem_cons.mp hv with rfl | hv
  · exact absurd (List.prefix_nil.mp hu) hne
  · exact List.mem_cons_of_mem _ (hV.above v hv u hu hne)

/-- The request takes none of the entries that the path passes through. -/
def Spares (srv : RpcServer) (os : Os) (t : Tree) (request : Request) (relative : String) : Prop :=
  ∀ v ∈ srv.route t relative, ¬ srv.Takes os t v request

/-- A path keeps its object if the request takes nothing the path passes through. -/
theorem object_of_untouched {request : Request} {i : Nat} (h : srv.object t relative = some i)
    (hno : srv.Spares os t request relative) :
    srv.object (final (srv.dispatch os request t)) relative = some i := by
  obtain ⟨path, q, e, hex, he, rfl⟩ := object_eq_some_iff.mp h
  unfold Spares at hno
  rw [hex.route_eq] at hno
  refine hex.object_of_keeps he ?_
  refine keeps_dispatch (Route.cons_root (route_passes hex.resolves)) request fun v hv htakes => ?_
  rcases List.mem_cons.mp hv with rfl | hv
  · exact takes_ne_root htakes rfl
  · exact hno v hv htakes

/-! ### Objects that are moved -/

/-- After a successful rename the new path leads to what the old one led to, at `q`: the way
    to the new path's directory avoids both the old location and the new; and if the entry is
    a link, then from there it leads to `q`, and avoids them too. -/
def Follows (srv : RpcServer) (os : Os) (t : Tree) (from_ to_ : String) (replace : Bool)
    (q : Loc) : Prop :=
  ∃ fromPath toPath t₁ src d x s q₁ V,
    srv.Plans os t from_ to_ replace fromPath toPath t₁ src (d ++ [x]) ∧ t.shape src = some s ∧
      Onward t toPath d x s q₁ V ∧ (src ≠ d ++ [x] → src ∉ V ∧ d ++ [x] ∉ V) ∧
      ((∃ tgt, s = .symlink tgt) → q₁ = q)

/-- What clearing leaves is what was there. -/
theorem Cleared.tag {replace : Bool} {t₁ : Tree} (h : Cleared os t path replace t₁)
    (he : t₁.look v = some e) : t.tag v = t₁.tag v := by
  cases h with
  | kept _ => rfl
  | @removed d x _ _ _ _ _ =>
    rw [Tree.tag_touch]
    have hv : ¬ d ++ [x] <+: v := by
      intro hpre
      have hnone : ((t.prune (d ++ [x])).touch os d).shape v = none := by
        rw [Tree.shape_touch, Tree.shape_prune (by simp), if_pos hpre]
      rw [Tree.shape_of_look he] at hnone
      cases hnone
    unfold Tree.tag
    rw [Tree.look_prune_apart hv]

/-- Before its move a rename changes nothing but the target. -/
theorem Cleared.keeps {replace : Bool} {t₁ : Tree} {d : Loc} {x : Name}
    (h : Cleared os t path replace t₁) (hnames : Names t path d x) (hV : Route t V)
    (hno : d ++ [x] ∉ V ∨ t₁.look (d ++ [x]) ≠ none) : Keeps V t t₁ := by
  cases h with
  | kept _ => exact .refl V t
  | removed _ _ hn _ _ =>
    obtain ⟨rfl, rfl⟩ := hn.unique hnames
    refine Keeps.remove hV (hno.resolve_right fun hlook => hlook ?_)
    rw [Tree.look_touch_of_ne (by simp), Tree.look_prune_below (by simp) (List.prefix_refl _)]

/-- After such a rename the new path stands for the object. -/
theorem object_of_follows {from_ to_ : String} {replace : Bool}
    (hex : srv.Existing t from_ path q) (he : t.look q = some e)
    (h : srv.Follows os t from_ to_ replace q) :
    srv.object (final (srv.rename os from_ to_ replace t)) to_ = some e.ino := by
  obtain ⟨fp, tp, t₁, src, d, x, s, q₁, V, hplans, hs, honward, havoid, hlink⟩ := h
  obtain ⟨q₀, hfrom⟩ := hplans.existing
  obtain ⟨rfl, rfl⟩ := hex.unique hfrom
  obtain ⟨q', hto⟩ := hplans.forNew
  obtain ⟨d₀, x₀, hsrc, d', x', hdst, e₁, he₁, -, hapart, rfl, hdst_eq⟩ :=
    Fs.renamePlan_eq_ok.mp hplans.plan
  have hnames := honward.names
  rw [hplans.run, final_ok]
  generalize hd : d ++ [x] = dst at *
  have hd_ne : dst ≠ [] := by rw [← hd]; simp
  have hV : Route t ([] :: V) := Route.cons_root honward.route
  -- the target was cleared, and the entry moved onto it
  have hcleared : Keeps ([] :: V) t t₁ := by
    refine hplans.cleared.keeps hnames hV ?_
    rw [hd]
    by_cases heq : d₀ ++ [x₀] = dst
    · right
      rw [← heq, he₁]
      simp
    · exact .inl (List.not_mem_cons_of_ne_of_not_mem hd_ne (havoid heq).2)
  have hmoved : Keeps ([] :: V) t (Fs.renamed os (d₀ ++ [x₀]) dst t₁) := by
    refine hcleared.trans (.renamed (hcleared.route hV) (by simp) hd_ne (fun hne => ?_) os)
    exact ⟨List.not_mem_cons_of_ne_of_not_mem (by simp) (havoid hne).1,
      List.not_mem_cons_of_ne_of_not_mem hd_ne (havoid hne).2⟩
  have htag : (Fs.renamed os (d₀ ++ [x₀]) dst t₁).tag dst = t.tag (d₀ ++ [x₀]) := by
    rw [hplans.cleared.tag he₁]
    refine tag_renamed (by simp) hd_ne ?_ fun hne => ⟨(hapart hne).1, (hapart hne).2.1⟩
    rw [← hdst_eq, List.dropLast_concat]
    exact hdst.dir
  obtain ⟨e₀, he₀, rfl⟩ := Tree.shape_eq_some_iff.mp hs
  rw [Tree.tag_of_look he₀] at htag
  obtain ⟨e', he', hshape', hino'⟩ := Tree.tag_eq_some_iff.mp htag
  have hres : resolve (Fs.renamed os (d₀ ++ [x₀]) dst t₁) tp = .ok q₁ := by
    refine honward.resolve (fun v hv => hmoved v (List.mem_cons_of_mem _ hv)) ?_
    rw [hd, Tree.shape_of_look he', hshape']
  by_cases hl : ∃ tgt, e₀.shape = .symlink tgt
  · -- the link was moved, and still leads to the object
    obtain rfl := hlink hl
    obtain ⟨tgt, htgt⟩ := hl
    rw [htgt] at honward
    have hq : q₁ ∈ [] :: V := by
      rcases eq_or_ne q₁ [] with rfl | hne
      · exact List.mem_cons_self
      · exact List.mem_cons_of_mem _ (honward.mem_of_link hne)
    have htagq := hmoved q₁ hq
    rw [Tree.tag_of_look he] at htagq
    obtain ⟨e₂, he₂, -, hino₂⟩ := Tree.tag_eq_some_iff.mp htagq
    exact object_eq_some_iff.mpr ⟨tp, q₁, e₂, ⟨hto.joins, hplans.nul, hres, hex.within⟩, he₂, hino₂⟩
  · -- the object itself was moved
    have hq₁ : q₁ = dst := (honward.eq_entry hl).trans hd
    have hsrc₀ := hsrc.mono hplans.cleared.fewer
    obtain ⟨e₂, he₂, hq⟩ := hsrc₀.entry_of_resolve hex.resolves
    rw [he₀] at he₂
    cases he₂
    rw [hq fun tgt htgt => hl ⟨tgt, htgt⟩, he₀] at he
    cases he
    have hwithin : srv.rootReal <+: dst := hd ▸ hto.within_entry hnames
    rw [hq₁] at hres
    exact object_eq_some_iff.mpr ⟨tp, dst, e', ⟨hto.joins, hplans.nul, hres, hwithin⟩, he', hino'⟩

/-! ### What a deletion removes -/

/-- A deletion removes the object that the path leads to, or the link at its end. -/
theorem object_or_link_of_removes {request : Request} (hex : srv.Existing t relative path q)
    (hrequest : request = .removeFile relative ∨ request = .removeDir relative)
    (h : srv.Removes t v request) : v = q ∨ ∃ tgt, t.shape v = some (.symlink tgt) := by
  have hentry : ∃ path' q' d x, srv.Existing t relative path' q' ∧ Names t path' d x ∧
      v = d ++ [x] := by
    rcases hrequest with rfl | rfl
    · obtain ⟨p, q', d, x, e, hex', hnames, -, -, -, hv⟩ := h
      exact ⟨p, q', d, x, hex', hnames, hv⟩
    · obtain ⟨p, q', d, x, e, hex', hnames, -, -, -, hv⟩ := h
      exact ⟨p, q', d, x, hex', hnames, hv⟩
  obtain ⟨path', q', d, x, hex', hnames, rfl⟩ := hentry
  obtain ⟨rfl, rfl⟩ := hex.unique hex'
  obtain ⟨e, he, hq⟩ := hnames.entry_of_resolve hex.resolves
  by_cases hlink : ∃ tgt, e.shape = .symlink tgt
  · obtain ⟨tgt, htgt⟩ := hlink
    exact .inr ⟨tgt, by rw [Tree.shape_of_look he, htgt]⟩
  · exact .inl (hq fun tgt htgt => hlink ⟨tgt, htgt⟩).symm

/-! ### What a request does to a path -/

/-- The request removes what is at `q`, or a directory above. -/
def Drops (srv : RpcServer) (t : Tree) (request : Request) (q : Loc) : Prop :=
  ∃ v, srv.Removes t v request ∧ v <+: q

/-- The rename succeeds. -/
def Succeeds (srv : RpcServer) (os : Os) (t : Tree) (from_ to_ : String) (replace : Bool) : Prop :=
  ∃ fromPath toPath t₁ src dst, srv.Plans os t from_ to_ replace fromPath toPath t₁ src dst

end RpcServer

end Netfilum
