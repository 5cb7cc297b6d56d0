import Netfilum.Posix.Calls

namespace Posix

open Program Rust

/-!
# Where a path leads

Two readings of a path, and how they relate.  `resolve t p` is the object the path leads
to, following a link at its end; `Names t p d x` says that the path's last name is the
entry `x` of the directory `d`, which may be a link.

* `resolve_look` — a path that resolves leads to a file or a directory.
* `Names.of_resolve`, `Names.entry_of_resolve` — a path that resolves names an entry, and
  unless that entry is a link it is where the path leads.
* `Names.mono` — what a path names in a smaller tree, it named before.
* `Names.resolve_insert` — a path leads to what was added at it.
* `passes` — the locations a path passes through; `Keeps.resolve` — it leads to the same
  place in every tree that looks alike there.
* `names_fewer_iff`, `names_prune_iff` — what a path names once entries are gone.
* `Onward` — where a path leads once another entry stands at its end.
-/

variable {t t' : Tree} {p : PathBuf} {d q : Loc} {x : Name}

/-- The last name of the path is the entry `x` of the directory `d`. -/
structure Names (t : Tree) (p : PathBuf) (d : Loc) (x : Name) : Prop where
  last  : p.names.getLast? = some x
  walks : ∃ n, walk t.shape maxLinks [] (p.names.dropLast.map .name) = .ok (d, n)
  dir   : t.shape d = some .dir

/-- The directory in which an entry is named. -/
theorem parentOf_eq_ok {e : Errno} : parentOf t p e = .ok (d, x) ↔ Names t p d x := by
  unfold parentOf
  cases hlast : p.names.getLast? with
  | none =>
    refine iff_of_false (by simp) (fun h => ?_)
    rw [h.last] at hlast
    cases hlast
  | some y =>
    cases hw : walk t.shape maxLinks [] (p.names.dropLast.map .name) with
    | error e =>
      refine iff_of_false (fun h => by cases h) (fun h => ?_)
      obtain ⟨n, hn⟩ := h.walks
      rw [hw] at hn
      cases hn
    | ok r =>
      obtain ⟨d', n⟩ := r
      change (if t.shape d' = some .dir then Except.ok (d', y) else .error Errno.ENOTDIR)
        = .ok (d, x) ↔ _
      constructor
      · intro h
        split at h
        · rename_i hdir
          cases h
          exact ⟨hlast, ⟨n, hw⟩, hdir⟩
        · cases h
      · intro h
        obtain ⟨n', hn'⟩ := h.walks
        rw [hw] at hn'
        cases hn'
        have hx := h.last
        rw [hlast] at hx
        cases hx
        rw [if_pos h.dir]

/-- A path names at most one entry. -/
theorem Names.unique {d' : Loc} {x' : Name} (h : Names t p d x) (h' : Names t p d' x') :
    d = d' ∧ x = x' := by
  have hok := (parentOf_eq_ok (e := .EBUSY)).mpr h
  rw [(parentOf_eq_ok (e := .EBUSY)).mpr h'] at hok
  cases hok
  exact ⟨rfl, rfl⟩

/-- A path that names an entry has a name. -/
theorem Names.names_ne (h : Names t p d x) : p.names ≠ [] := by
  intro hnil
  have hlast := h.last
  rw [hnil] at hlast
  cases hlast

/-! ### Resolving -/

/-- A path leads where the walk over its components ends. -/
theorem resolve_eq_ok :
    resolve t p = .ok q ↔ ∃ n, walk t.shape maxLinks [] p.todo = .ok (q, n) := by
  unfold resolve
  cases walk t.shape maxLinks [] p.todo with
  | error e => simp [Except.map]
  | ok r => obtain ⟨q', n⟩ := r; simp [Except.map]

/-- A walk from the root directory ends at a file or a directory. -/
theorem shape_of_walk {todo : List Comp} {n : Nat}
    (h : walk t.shape maxLinks [] todo = .ok (q, n)) :
    t.shape q = some .file ∨ t.shape q = some .dir :=
  walk_exists maxLinks [] todo (q, n) Tree.shape_root
    (fun _ hne hex => Tree.shape_dropLast hne hex) Tree.shape_root h

/-- A path leads to a file or to a directory. -/
theorem shape_of_resolve (h : resolve t p = .ok q) :
    t.shape q = some .file ∨ t.shape q = some .dir := by
  obtain ⟨n, hn⟩ := resolve_eq_ok.mp h
  exact shape_of_walk hn

/-- A path that resolves leads to a file or a directory. -/
theorem resolve_look (h : resolve t p = .ok q) :
    ∃ e, t.look q = some e ∧ (e.shape = .file ∨ e.shape = .dir) := by
  rcases shape_of_resolve h with hs | hs
  · obtain ⟨e, he, hes⟩ := Tree.shape_eq_some_iff.mp hs
    exact ⟨e, he, .inl hes⟩
  · obtain ⟨e, he, hes⟩ := Tree.shape_eq_some_iff.mp hs
    exact ⟨e, he, .inr hes⟩

/-- A walk of the last name, once its directory is reached. -/
theorem Names.walk_todo {n : Nat} (h : Names t p d x)
    (hn : walk t.shape maxLinks [] (p.names.dropLast.map .name) = .ok (d, n)) :
    walk t.shape maxLinks [] p.todo
      = walk t.shape n d (.name x :: if p.trailing then [.cur] else []) := by
  obtain ⟨up, hup⟩ := List.getLast?_eq_some_iff.mp h.last
  rw [hup, List.dropLast_concat] at hn
  unfold PathBuf.todo
  rw [hup, List.map_append, List.append_assoc, walk_append, hn]
  rfl

/-- A path to an entry that is missing does not resolve. -/
theorem Names.resolve_none (h : Names t p d x) (hx : t.look (d ++ [x]) = none) :
    resolve t p = .error .ENOENT := by
  obtain ⟨n, hn⟩ := h.walks
  unfold resolve
  rw [h.walk_todo hn, walk_missing h.dir (Tree.shape_eq_none_iff.mpr hx)]
  rfl

/-- A path to a directory, or to a file without a trailing slash, leads to the entry. -/
theorem Names.resolve_entry {e : Entry} (h : Names t p d x) (hx : t.look (d ++ [x]) = some e)
    (hs : e.shape = .dir ∨ e.shape = .file ∧ p.trailing = false) :
    resolve t p = .ok (d ++ [x]) := by
  obtain ⟨n, hn⟩ := h.walks
  have hshape := Tree.shape_of_look hx
  have hlink : ∀ tgt, e.shape ≠ .symlink tgt := by
    intro tgt heq
    rw [heq] at hs
    rcases hs with hs | ⟨hs, -⟩ <;> cases hs
  refine resolve_eq_ok.mpr ⟨n, ?_⟩
  rw [h.walk_todo hn, walk_entry h.dir hshape hlink]
  rcases hs with hs | ⟨-, hs⟩
  · rw [hs] at hshape
    cases p.trailing
    · exact walk_nil
    · rw [if_pos rfl, walk_cur hshape, walk_nil]
  · rw [hs]
    exact walk_nil

/-- A path that resolves names an entry that exists, unless it is the path of the root
    directory; and the path leads to this entry unless it is a link. -/
theorem Names.of_resolve (h : resolve t p = .ok q) (hne : p.names ≠ []) :
    ∃ d x e, Names t p d x ∧ t.look (d ++ [x]) = some e ∧
      ((∀ tgt, e.shape ≠ .symlink tgt) → q = d ++ [x]) := by
  obtain ⟨n, hn⟩ := resolve_eq_ok.mp h
  have hlast := List.dropLast_concat_getLast hne
  generalize p.names.getLast hne = x at hlast
  have htodo : p.todo = p.names.dropLast.map .name ++
      (.name x :: if p.trailing then [.cur] else []) := by
    unfold PathBuf.todo
    conv_lhs => rw [← hlast]
    simp
  -- the walk goes to the directory first, then takes the last name
  rw [htodo, walk_append] at hn
  cases hw : walk t.shape maxLinks [] (p.names.dropLast.map .name) with
  | error e => rw [hw] at hn; cases hn
  | ok r =>
    obtain ⟨d, m⟩ := r
    rw [hw] at hn
    change walk t.shape m d _ = _ at hn
    have hdir : t.shape d = some .dir := by
      rcases shape_of_walk hw with hs | hs
      · rw [walk_leaf hs (by simp)] at hn; cases hn
      · exact hs
    have hnames : Names t p d x :=
      ⟨List.getLast?_eq_some_iff.mpr ⟨_, hlast.symm⟩, ⟨m, hw⟩, hdir⟩
    cases hx : t.look (d ++ [x]) with
    | none =>
      -- no such entry: the path would not resolve
      rw [hnames.resolve_none hx] at h
      cases h
    | some e =>
      refine ⟨d, x, e, hnames, hx, fun hlink => ?_⟩
      have hshape := Tree.shape_of_look hx
      rw [walk_entry hdir hshape hlink] at hn
      cases ht : p.trailing with
      | false =>
        rw [ht] at hn
        cases hn.symm.trans walk_nil
        rfl
      | true =>
        rw [ht] at hn
        -- a trailing slash asks for a directory
        by_cases hd : e.shape = .dir
        · rw [hd] at hshape
          rw [if_pos rfl, walk_cur hshape, walk_nil] at hn
          cases hn
          rfl
        · rw [if_pos rfl, walk_leaf hshape hd] at hn
          cases hn

/-- A path that leads somewhere names an entry, and if this is no link leads to it. -/
theorem Names.entry_of_resolve (hnames : Names t p d x) (h : resolve t p = .ok q) :
    ∃ e, t.look (d ++ [x]) = some e ∧ ((∀ tgt, e.shape ≠ .symlink tgt) → q = d ++ [x]) := by
  obtain ⟨d', x', e, hnames', he, hq⟩ := Names.of_resolve h hnames.names_ne
  obtain ⟨rfl, rfl⟩ := hnames.unique hnames'
  exact ⟨e, he, hq⟩

/-- The directory a path's last name is looked up in is where the path of its parent
    leads. -/
theorem Names.resolve_parent (h : Names t p d x) :
    resolve t ⟨p.names.dropLast, false⟩ = .ok d := by
  obtain ⟨n, hn⟩ := h.walks
  refine resolve_eq_ok.mpr ⟨n, ?_⟩
  unfold PathBuf.todo
  rw [if_neg Bool.false_ne_true, List.append_nil]
  exact hn

/-- Walking the names of a file's or directory's location leads to it. -/
theorem walk_canonical {s : Shape} (n : Nat) (h : t.shape q = some s)
    (hs : ∀ tgt, s ≠ .symlink tgt) : walk t.shape n [] (q.map .name) = .ok (q, n) := by
  have hwalk := walk_names n [] q
    (fun u _ huq hne => Tree.shape_above huq hne (by rw [List.nil_append, h]; simp))
    (by rwa [List.nil_append]) hs
  rwa [List.nil_append] at hwalk

/-- The canonical path of an entry names it. -/
theorem names_canonical (hp : p.names = d ++ [x]) (h : t.shape (d ++ [x]) ≠ none) :
    Names t p d x := by
  have hdir : t.shape d = some .dir := by
    have := Tree.shape_dropLast (by simp) h
    rwa [List.dropLast_concat] at this
  refine ⟨by rw [hp, List.getLast?_concat], ⟨maxLinks, ?_⟩, hdir⟩
  rw [hp, List.dropLast_concat]
  exact walk_canonical maxLinks hdir (by simp)

/-- A path without names leads to the root directory. -/
theorem resolve_nil (h : p.names = []) : resolve t p = .ok [] := by
  refine resolve_eq_ok.mpr ⟨maxLinks, ?_⟩
  unfold PathBuf.todo
  rw [h, List.map_nil, List.nil_append]
  cases p.trailing
  · exact walk_nil
  · rw [if_pos rfl, walk_cur Tree.shape_root, walk_nil]

/-- A trailing slash makes no difference to a directory. -/
theorem resolve_join_nil (h : resolve t p = .ok q) (hq : t.shape q = some .dir) :
    resolve t (p.join []) = .ok q := by
  obtain ⟨n, hn⟩ := resolve_eq_ok.mp h
  refine resolve_eq_ok.mpr ⟨n, ?_⟩
  unfold PathBuf.join PathBuf.todo at *
  rw [if_pos rfl, if_pos rfl]
  cases ht : p.trailing with
  | true => rwa [ht, if_pos rfl] at hn
  | false =>
    rw [ht, if_neg Bool.false_ne_true, List.append_nil] at hn
    rw [walk_append, hn]
    exact (walk_cur hq).trans walk_nil

/-- The names of a path lead where the path leads, and with a trailing slash that is a
    directory. -/
theorem walk_of_resolve (h : resolve t p = .ok q) :
    (∃ n, walk t.shape maxLinks [] (p.names.map .name) = .ok (q, n)) ∧
      (p.trailing = true → t.shape q = some .dir) := by
  obtain ⟨n, hn⟩ := resolve_eq_ok.mp h
  unfold PathBuf.todo at hn
  cases ht : p.trailing with
  | false =>
    rw [ht, if_neg Bool.false_ne_true, List.append_nil] at hn
    exact ⟨⟨n, hn⟩, fun h => by cases h⟩
  | true =>
    rw [ht, if_pos rfl, walk_append] at hn
    cases hw : walk t.shape maxLinks [] (p.names.map .name) with
    | error e => rw [hw] at hn; cases hn
    | ok r =>
      rw [hw] at hn
      change walk t.shape r.2 r.1 [.cur] = _ at hn
      rcases shape_of_walk (q := r.1) (n := r.2) hw with hs | hs
      · rw [walk_leaf hs (by simp)] at hn
        cases hn
      · rw [walk_cur hs, walk_nil] at hn
        cases hn
        exact ⟨⟨_, rfl⟩, fun _ => hs⟩

/-- A name joined to the path of a directory names an entry of the directory. -/
theorem names_join (h : resolve t p = .ok d) (hd : t.shape d = some .dir) (x : Name) :
    Names t (p.join [x]) d x := by
  obtain ⟨⟨n, hwalk⟩, -⟩ := walk_of_resolve h
  unfold PathBuf.join
  rw [if_neg (by simp)]
  exact ⟨List.getLast?_concat .., ⟨n, by rwa [List.dropLast_concat]⟩, hd⟩

/-- Names are joined one after another. -/
theorem PathBuf.join_join (p : PathBuf) (rel : List Name) (n : Name) :
    (p.join rel).join [n] = p.join (rel ++ [n]) := by
  unfold PathBuf.join
  rcases eq_or_ne rel [] with rfl | hne
  · rfl
  · rw [if_neg hne, if_neg (by simp), if_neg (by simp), List.append_assoc]

/-- No path leads on from an empty directory. -/
theorem resolve_empty {r : Name} {rest : List Name} (hdir : t.shape q = some .dir)
    (hempty : t.children q = []) : resolve t ⟨q ++ r :: rest, false⟩ = .error .ENOENT := by
  have hwalk := walk_canonical maxLinks hdir (by simp)
  have hgone : t.shape (q ++ [r]) = none :=
    Tree.shape_eq_none_iff.mpr (Tree.children_eq_nil_iff.mp hempty r)
  unfold resolve PathBuf.todo
  rw [if_neg Bool.false_ne_true, List.append_nil, List.map_append, walk_append, hwalk]
  show (walk t.shape maxLinks q (.name r :: rest.map .name)).map Prod.fst = _
  rw [walk_missing hdir hgone]
  rfl

/-! ### Smaller trees -/

/-- What is named in a tree with fewer entries was named before. -/
theorem Names.mono (hsub : Fewer t'.shape t.shape) (h : Names t' p d x) : Names t p d x := by
  obtain ⟨n, hn⟩ := h.walks
  exact ⟨h.last, ⟨n, walk_mono hsub _ _ _ _ hn⟩, hsub _ _ h.dir⟩

/-- Where a path leads depends on the shapes only. -/
theorem resolve_congr (h : t'.shape = t.shape) : resolve t' p = resolve t p := by
  unfold resolve
  rw [h]

/-- What a path names depends on the shapes only. -/
theorem Names.congr (h : t'.shape = t.shape) : Names t' p d x ↔ Names t p d x :=
  ⟨.mono (fun _ _ hq => by rwa [← h]), .mono (fun _ _ hq => by rwa [h])⟩

/-- Times play no part in what a path leads to, nor in the entry it names. -/
theorem resolve_touch (os : Os) (d : Loc) : resolve (t.touch os d) p = resolve t p :=
  resolve_congr (Tree.shape_touch os d)

/-- New time stamps do not change what a path names. -/
theorem names_touch {c : Loc} (os : Os) (d : Loc) :
    Names (t.touch os d) p c x ↔ Names t p c x :=
  Names.congr (Tree.shape_touch os d)

/-- A removal leaves fewer entries. -/
theorem Tree.fewer_prune (q : Loc) : Fewer (t.prune q).shape t.shape := by
  intro r s h
  rcases eq_or_ne q [] with rfl | hq
  · rwa [Tree.prune, dif_pos rfl] at h
  · rw [Tree.shape_prune hq] at h
    split at h
    · cases h
    · exact h

/-- With a new entry there were fewer entries. -/
theorem Tree.fewer_insert {a : Attr} {b : Body} (hfree : t.look (d ++ [x]) = none) :
    Fewer t.shape (t.insert d x a b).shape := by
  intro q s h
  have hq : q ≠ d ++ [x] := by
    rintro rfl
    rw [Tree.shape_eq_none_iff.mpr hfree] at h
    cases h
  rwa [Tree.shape_insert_of_ne hq]

/-- A path leads to the entry that was added where it names one. -/
theorem Names.resolve_insert {a : Attr} {b : Body} (h : Names t p d x)
    (hfree : t.look (d ++ [x]) = none)
    (hb : b.shape = .dir ∨ b.shape = .file ∧ p.trailing = false) :
    resolve (t.insert d x a b) p = .ok (d ++ [x]) :=
  (h.mono (Tree.fewer_insert hfree)).resolve_entry (Tree.look_insert_self h.dir hfree) hb

/-! ### What a path passes through -/

/-- The locations that resolving the path looks at. -/
def passes (t : Tree) (p : PathBuf) : List Loc := visits t.shape maxLinks [] p.todo

/-- `V` is a set of entries, with all directories on the way down to each. -/
structure Route (t : Tree) (V : List Loc) : Prop where
  exist : ∀ v ∈ V, t.shape v ≠ none
  above : ∀ v ∈ V, ∀ u, u <+: v → u ≠ [] → u ∈ V

/-- What a walk visits is its route. -/
theorem route_visits {todo : List Comp} {n : Nat}
    (h : walk t.shape maxLinks [] todo = .ok (q, n)) :
    Route t (visits t.shape maxLinks [] todo) := by
  refine ⟨visits_exist _ _ _ _ h, fun v hv u hu hne => ?_⟩
  exact ((visits_above maxLinks [] todo).1 v hv u hu).resolve_right
    fun h => hne (List.prefix_nil.mp h)

/-- A walk looks at where it ends. -/
theorem mem_visits {todo : List Comp} {n : Nat} (h : walk t.shape maxLinks [] todo = .ok (q, n))
    (hq : q ≠ []) : q ∈ visits t.shape maxLinks [] todo :=
  ((visits_above maxLinks [] todo).2 _ h q (List.prefix_refl q)).resolve_right
    fun h => hq (List.prefix_nil.mp h)

/-- What a path passes is its route. -/
theorem route_passes (h : resolve t p = .ok q) : Route t (passes t p) := by
  obtain ⟨n, hn⟩ := resolve_eq_ok.mp h
  exact route_visits hn

/-- A path passes through where it leads. -/
theorem mem_passes (h : resolve t p = .ok q) (hq : q ≠ []) : q ∈ passes t p := by
  obtain ⟨n, hn⟩ := resolve_eq_ok.mp h
  exact mem_visits hn hq

/-- A path without links passes only through the directories above where it leads. -/
theorem prefix_of_mem_passes (h : t.shape p.names = some .dir) :
    ∀ v ∈ passes t p, v <+: p.names := by
  -- directories above a directory are no links
  have hlink : ∀ u, u <+: [] ++ p.names → ∀ tgt, t.shape u ≠ some (.symlink tgt) := by
    intro u hu tgt
    rw [List.nil_append] at hu
    rcases eq_or_ne u p.names with rfl | hne
    · rw [h]; simp
    · rw [Tree.shape_above hu hne (by rw [h]; simp)]; simp
  exact visits_names maxLinks [] p.names p.trailing hlink

/-- The two trees have the same objects at these locations. -/
def Keeps (V : List Loc) (t t' : Tree) : Prop := ∀ v ∈ V, t'.tag v = t.tag v

/-- What is kept keeps its shape. -/
theorem Keeps.shape {V : List Loc} {v : Loc} (h : Keeps V t t') (hv : v ∈ V) :
    t'.shape v = t.shape v := by
  rw [Tree.shape_eq_map_tag, Tree.shape_eq_map_tag, h v hv]

/-- Trees that look alike where a path passes resolve it alike. -/
theorem Keeps.resolve (h : Keeps (passes t p) t t') :
    resolve t' p = resolve t p ∧ passes t' p = passes t p := by
  obtain ⟨hw, hv⟩ := walk_congr maxLinks [] p.todo fun v hv => h.shape hv
  unfold Posix.resolve passes
  exact ⟨by rw [hw], hv⟩

namespace Keeps

variable {t'' : Tree} {V : List Loc} {a : Attr} {b : Body}

/-- Nothing changes. -/
theorem refl (V : List Loc) (t : Tree) : Keeps V t t := fun _ _ => rfl

/-- What is passed is kept in steps. -/
theorem trans (h : Keeps V t t') (h' : Keeps V t' t'') : Keeps V t t'' := fun v hv =>
  (h' v hv).trans (h v hv)

/-- Where no object changes, all are kept. -/
theorem of_tag (h : t'.tag = t.tag) : Keeps V t t' := fun v _ => congrFun h v

/-- New time stamps keep what is passed. -/
theorem touch (os : Os) (d : Loc) : Keeps V t (t.touch os d) := of_tag (Tree.tag_touch os d)

/-- A new entry keeps what is passed, as nothing was there. -/
theorem insert (hV : Route t V) (hfree : t.look (d ++ [x]) = none) :
    Keeps V t (t.insert d x a b) := by
  intro v hv
  refine Tree.tag_insert_of_ne ?_
  rintro rfl
  exact hV.exist _ hv (Tree.shape_eq_none_iff.mpr hfree)

/-- A removal of what is not passed keeps what is passed. -/
theorem prune (hV : Route t V) (hq : q ≠ []) (hqV : q ∉ V) : Keeps V t (t.prune q) := by
  intro v hv
  unfold Tree.tag
  rw [Tree.look_prune_apart fun hqv => hqV (hV.above v hv q hqv hq)]

/-- A rename of what is not passed keeps what is passed. -/
theorem renamed {src dst : Loc} (hV : Route t V) (hs : src ≠ []) (hd : dst ≠ [])
    (hne : src ≠ dst → src ∉ V ∧ dst ∉ V) (os : Os) : Keeps V t (Fs.renamed os src dst t) := by
  unfold Fs.renamed
  split
  · exact .refl V t
  · rename_i h
    obtain ⟨hsV, hdV⟩ := hne h
    -- the route stays clear of the source and of the target
    have hmove : Keeps V t ((t.prune dst).move src dst) := by
      intro v hv
      have hsv : ¬ src <+: v := fun hc => hsV (hV.above v hv src hc hs)
      have hdv : ¬ dst <+: v := fun hc => hdV (hV.above v hv dst hc hd)
      unfold Tree.tag
      rw [Tree.look_move_of_apart hsv hdv, Tree.look_prune_apart hdv]
    have hchanged := hmove.trans (of_tag (Tree.tag_setAttr dst os.changed))
    exact (hchanged.trans (.touch os _)).trans (.touch os _)

/-- What is on the way stays a route. -/
theorem route (h : Keeps V t t') (hV : Route t V) : Route t' V :=
  ⟨fun v hv => by rw [h.shape hv]; exact hV.exist v hv, hV.above⟩

end Keeps

/-! ### A new entry at the end of a path -/

/-- The locations that finding the directory of a path's last name looks at. -/
def approach (t : Tree) (p : PathBuf) : List Loc :=
  visits t.shape maxLinks [] (p.names.dropLast.map .name)

/-- The approach looks at every directory on the way down to what it looks at. -/
theorem approach_above {v : Loc} (hv : v ∈ approach t p) (hq : q <+: v) (hne : q ≠ []) :
    q ∈ approach t p :=
  ((visits_above maxLinks [] _).1 v hv q hq).resolve_right fun h => hne (List.prefix_nil.mp h)

/-- A path whose approach looks alike names the same entry. -/
theorem Names.of_shapes (h : Names t p d x) (hsame : ∀ v ∈ approach t p, t'.shape v = t.shape v) :
    Names t' p d x := by
  obtain ⟨n, hn⟩ := h.walks
  have hwalk := (walk_congr maxLinks [] _ hsame).1
  refine ⟨h.last, ⟨n, by rw [hwalk, hn]⟩, ?_⟩
  rcases eq_or_ne d [] with rfl | hd
  · exact Tree.shape_root
  · rw [hsame d (mem_visits hn hd), h.dir]

/-- A path names the same where the way to its entry is kept. -/
theorem Names.of_keeps (h : Names t p d x) (hkeeps : Keeps (approach t p) t t') :
    Names t' p d x := h.of_shapes fun _ hv => hkeeps.shape hv

/-- In a smaller tree a path names what it named, as long as all of its approach is there. -/
theorem names_fewer_iff (hsub : Fewer t'.shape t.shape) :
    Names t' p d x ↔ Names t p d x ∧ ∀ v ∈ approach t p, t'.shape v ≠ none := by
  constructor
  · intro h
    obtain ⟨n, hn⟩ := h.walks
    have hexist := visits_exist _ _ _ _ hn
    -- the smaller tree is looked at in places it still has, so the larger one looks the same there
    have hsame : ∀ v ∈ visits t'.shape maxLinks [] (p.names.dropLast.map .name),
        t.shape v = t'.shape v := by
      intro v hv
      obtain ⟨s, hs⟩ := Option.ne_none_iff_exists'.mp (hexist v hv)
      rw [hs, hsub v s hs]
    have happroach : approach t p = approach t' p := (walk_congr maxLinks [] _ hsame).2
    refine ⟨h.mono hsub, fun v hv => ?_⟩
    rw [happroach] at hv
    exact hexist v hv
  · rintro ⟨h, hexist⟩
    obtain ⟨n, hn⟩ := h.walks
    have hsame : ∀ v ∈ approach t p, t'.shape v = t.shape v := by
      intro v hv
      obtain ⟨s, hs⟩ := Option.ne_none_iff_exists'.mp (hexist v hv)
      rw [hs, hsub v s hs]
    exact h.of_shapes hsame

/-- Without the entry at `q` a path names what it named, unless `q` was on its approach. -/
theorem names_prune_iff (hq : q ≠ []) :
    Names (t.prune q) p d x ↔ Names t p d x ∧ q ∉ approach t p := by
  rw [names_fewer_iff (Tree.fewer_prune q)]
  refine and_congr_right fun h => ⟨fun hexist hmem => ?_, fun hno v hv hgone => ?_⟩
  · refine hexist q hmem ?_
    rw [Tree.shape_prune hq, if_pos (List.prefix_refl q)]
  · obtain ⟨n, hn⟩ := h.walks
    have hroute : Route t (approach t p) := route_visits hn
    rw [Tree.shape_prune hq] at hgone
    split at hgone
    · rename_i hqv
      exact hno (hroute.above v hv q hqv hq)
    · exact hroute.exist v hv hgone

/-- A path names the same entry in two trees, if it names one in what they share. -/
theorem Names.meet {t₁ t₂ : Tree} {d' : Loc} {x' : Name} (hmeet : Meet t.shape t₁.shape t₂.shape)
    (h : Names t₁ p d x) (h' : Names t₂ p d' x') : d' = d ∧ x' = x := by
  obtain ⟨n, hn⟩ := h.walks
  obtain ⟨n', hn'⟩ := h'.walks
  have hboth := walk_mono hmeet.right _ _ _ _ (walk_meet hmeet _ _ _ _ _ hn hn')
  rw [hboth] at hn'
  cases hn'
  have hx := h.last
  rw [h'.last] at hx
  cases hx
  exact ⟨rfl, rfl⟩

/-- Where the path would lead if the entry it names had a certain shape, and what it would
    look at besides this entry. -/
inductive Onward (t : Tree) (p : PathBuf) (d : Loc) (x : Name) : Shape → Loc → List Loc → Prop where
  | entry {s : Shape} (h : Names t p d x) (hs : s = .dir ∨ s = .file ∧ p.trailing = false) :
      Onward t p d x s (d ++ [x]) (approach t p)
  | link {n m : Nat} {q : Loc} {tgt : Target} (h : Names t p d x) (htr : p.trailing = false)
      (hwalk : walk t.shape maxLinks [] (p.names.dropLast.map .name) = .ok (d, n + 1))
      (hrest : walk t.shape n (tgt.from d) tgt.comps = .ok (q, m)) :
      Onward t p d x (.symlink tgt) q (approach t p ++ visits t.shape n (tgt.from d) tgt.comps)

namespace Onward

variable {s : Shape} {V : List Loc}

/-- The path names the entry. -/
theorem names (h : Onward t p d x s q V) : Names t p d x := by
  cases h with
  | entry h _ => exact h
  | link h _ _ _ => exact h

/-- The way to the directory is looked at in any case. -/
theorem approach_subset (h : Onward t p d x s q V) : ∀ v ∈ approach t p, v ∈ V := by
  cases h with
  | entry _ _ => exact fun v hv => hv
  | link _ _ _ _ => exact fun v hv => List.mem_append_left _ hv

/-- What is passed is the route. -/
theorem route (h : Onward t p d x s q V) : Route t V := by
  cases h with
  | entry h _ =>
    obtain ⟨n, hn⟩ := h.walks
    exact route_visits hn
  | @link n m _ tgt h _ hwalk hrest =>
    have happroach : Route t (approach t p) := route_visits hwalk
    refine ⟨fun v hv => ?_, fun v hv u hu hne => ?_⟩
    · rcases List.mem_append.mp hv with hv | hv
      · exact happroach.exist v hv
      · exact visits_exist _ _ _ _ hrest v hv
    · rw [List.mem_append] at hv ⊢
      rcases hv with hv | hv
      · exact .inl (happroach.above v hv u hu hne)
      · rcases (visits_above n (tgt.from d) tgt.comps).1 v hv u hu with hin | habove
        · exact .inr hin
        · -- above the start of the link's target, hence above the directory
          have hud : u <+: d := habove.trans (tgt.from_above d)
          have hd : d ≠ [] := by
            rintro rfl
            exact hne (List.prefix_nil.mp hud)
          exact .inl (happroach.above d (mem_visits hwalk hd) u hud hne)

/-- An entry that is no link is where the path leads. -/
theorem eq_entry (h : Onward t p d x s q V) (hs : ¬ ∃ tgt, s = .symlink tgt) : q = d ++ [x] := by
  cases h with
  | entry _ _ => rfl
  | link _ _ _ _ => exact absurd ⟨_, rfl⟩ hs

/-- What a link leads to is looked at. -/
theorem mem_of_link {tgt : Target} (h : Onward t p d x (.symlink tgt) q V) (hq : q ≠ []) :
    q ∈ V := by
  cases h with
  | entry _ hs => rcases hs with hs | ⟨hs, -⟩ <;> cases hs
  | @link n m _ tgt h _ hwalk hrest =>
    rw [List.mem_append]
    rcases (visits_above n (tgt.from d) tgt.comps).2 _ hrest q (List.prefix_refl q) with
      hin | habove
    · exact .inr hin
    · have hqd : q <+: d := habove.trans (tgt.from_above d)
      have hd : d ≠ [] := by
        rintro rfl
        exact hq (List.prefix_nil.mp hqd)
      exact .inl ((route_visits hwalk).above d (mem_visits hwalk hd) q hqd hq)

/-- The path leads there once the entry is in place, if nothing else it looks at changed. -/
theorem resolve (h : Onward t p d x s q V) (hkeeps : Keeps V t t')
    (hentry : t'.shape (d ++ [x]) = some s) : resolve t' p = .ok q := by
  have happroach : Keeps (approach t p) t t' := fun v hv => hkeeps v (h.approach_subset v hv)
  have hnames := h.names.of_keeps happroach
  cases h with
  | entry _ hs =>
    obtain ⟨e, he, hshape⟩ := Tree.shape_eq_some_iff.mp hentry
    exact hnames.resolve_entry he (by rw [hshape]; exact hs)
  | @link n m _ tgt _ htr hw hrest =>
    have hn : walk t'.shape maxLinks [] (p.names.dropLast.map .name) = .ok (d, n + 1) := by
      rw [(walk_congr maxLinks [] _ fun v hv => happroach.shape hv).1, hw]
    have hlink : ∀ v ∈ visits t.shape n (tgt.from d) tgt.comps, t'.shape v = t.shape v :=
      fun v hv => hkeeps.shape (List.mem_append_right _ hv)
    refine resolve_eq_ok.mpr ⟨m, ?_⟩
    rw [hnames.walk_todo hn, walk_link hnames.dir hentry, htr, if_neg Bool.false_ne_true,
      List.append_nil, (walk_congr n (tgt.from d) tgt.comps hlink).1, hrest]

end Onward

end Posix
