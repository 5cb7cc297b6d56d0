import Netfilum.Posix.Moves

namespace Posix

open Program Rust

/-!
# Creating a directory with those above it

`fs::create_dir_all`, which asks for the directory first and, where there is nothing to put it
in, for the one above.

* `createDirAll` — the recursion over the names of the path.
* `Added` — a tree with directories added, and nothing else changed but times.
* `Creatable` — the path leads to a directory, or nothing stands at some name on its way.
* `createDirAll_cases` — then it succeeds, and else it fails and changes nothing;
  `createDirAll_of_isDir` — where the directory is there already it changes nothing.
-/

variable {os : Os} {t t' t'' : Tree} {p : PathBuf} {d q : Loc} {x : Name}

namespace Fs

/-- `Err(_) if path.is_dir() => Ok(())`. -/
def orDir (p : PathBuf) (call : EStateM IoError Tree Unit) : EStateM IoError Tree Unit := fun t =>
  match call t with
  | .ok u t'    => .ok u t'
  | .error e t' => (do
    let isDir ← isDir p
    if isDir then pure () else throw e) t'

/-- One level of `create_dir_all`; `above` makes the directory above. -/
def createLevel (os : Os) (p : PathBuf) (above : EStateM IoError Tree Unit) :
    EStateM IoError Tree Unit := fun t =>
  match createDir os p t with
  | .ok u t'    => .ok u t'
  | .error e t' =>
    -- there is nothing to put it in
    if e.kind = .notFound then (do above; orDir p (createDir os p)) t'
    else orDir p (throw e) t'

/-- The directory of these names, the last first, and those above it. -/
def createUpward (os : Os) : List Name → Bool → EStateM IoError Tree Unit
  | [], trailing      => createLevel os ⟨[], trailing⟩
    (throw ⟨.uncategorized, "failed to create whole tree"⟩)
  | x :: up, trailing => createLevel os ⟨(x :: up).reverse, trailing⟩ (createUpward os up false)

/-- `fs::create_dir_all`. -/
def createDirAll (os : Os) (p : PathBuf) : EStateM IoError Tree Unit :=
  createUpward os p.names.reverse p.trailing

end Fs

/-! ### Directories are added -/

/-- Directories are added, and nothing else is changed but times. -/
structure Added (t t' : Tree) : Prop where
  old : ∀ q e, t.look q = some e → ∃ a, t'.look q = some { e with attr := a }
  new : ∀ q e, t.look q = none → t'.look q = some e → e.shape = .dir

namespace Added

/-- Nothing is added. -/
theorem refl (t : Tree) : Added t t :=
  ⟨fun _ e he => ⟨e.attr, he⟩, fun q e hnone he => by rw [hnone] at he; cases he⟩

/-- What is added is added in steps. -/
theorem trans (h : Added t t') (h' : Added t' t'') : Added t t'' where
  old q e he := by
    obtain ⟨a, ha⟩ := h.old q e he
    obtain ⟨a', ha'⟩ := h'.old q _ ha
    exact ⟨a', ha'⟩
  new q e hnone he := by
    cases hq : t'.look q with
    | none => exact h'.new q e hq he
    | some e' =>
      obtain ⟨a, ha⟩ := h'.old q e' hq
      rw [he] at ha
      cases ha
      exact h.new q e' hnone hq

/-- Time stamps add nothing. -/
theorem touch (os : Os) (d : Loc) : Added t (t.touch os d) where
  old q e he := by
    by_cases hq : q = d
    · subst hq
      exact ⟨_, by rw [look_touch_self, he]; rfl⟩
    · exact ⟨e.attr, by rw [Tree.look_touch_of_ne hq, he]⟩
  new q e hnone he := by
    have hs := Tree.shape_of_look he
    rw [Tree.shape_touch, Tree.shape_eq_none_iff.mpr hnone] at hs
    cases hs

/-- A directory is added where nothing is. -/
theorem insert {a : Attr} {b : Body} (hb : b.shape = .dir) (hd : t.shape d = some .dir)
    (hfree : t.look (d ++ [x]) = none) : Added t (t.insert d x a b) where
  old q e he := by
    refine ⟨e.attr, ?_⟩
    rw [Tree.look_insert_of_ne, he]
    rintro rfl
    rw [hfree] at he
    cases he
  new q e hnone he := by
    by_cases hq : q = d ++ [x]
    · subst hq
      rw [Tree.look_insert_self hd hfree] at he
      cases he
      exact hb
    · rw [Tree.look_insert_of_ne hq, hnone] at he
      cases he

end Added

namespace Fs

/-! ### One directory -/

/-- The path leads to a directory. -/
def IsDir (t : Tree) (p : PathBuf) : Prop := ∃ q, Leads t p q ∧ t.shape q = some .dir

/-- An error is forgiven where the directory is there. -/
theorem orDir_of_error {call : EStateM IoError Tree Unit} {e : IoError}
    (h : call t = .error e t') :
    IsDir t' p ∧ orDir p call t = .ok () t' ∨ ¬ IsDir t' p ∧ orDir p call t = .error e t' := by
  obtain ⟨b, hb, hiff⟩ := isDir_ok (t := t') (p := p)
  unfold orDir
  rw [h]
  dsimp only
  rw [bind_of_ok hb]
  cases b with
  | true => exact .inl ⟨hiff.mp rfl, rfl⟩
  | false => exact .inr ⟨fun hdir => Bool.false_ne_true (hiff.mpr hdir), rfl⟩

/-- A call that succeeds is not asked about again. -/
theorem orDir_of_ok {call : EStateM IoError Tree Unit} (h : call t = .ok () t') :
    orDir p call t = .ok () t' := by
  unfold orDir
  rw [h]

/-! ### One directory is created -/

/-- How a call on an entry fails. -/
theorem effect_of_errno {f : Tree → Except Errno Tree} {errno : Errno} (hnul : p.hasNul = false)
    (hf : f t = .error errno) : effect p f t = .error errno.toIoError t := by
  unfold effect attempt
  dsimp only
  rw [hnul, hf]
  rfl

/-- What `create_dir` does: it adds a directory where its path names no entry, it finds nothing
    to put it in, or it fails in another way. -/
theorem createDir_cases (os : Os) (hnul : p.hasNul = false) :
    (∃ d x, Names t p d x ∧ t.look (d ++ [x]) = none) ∨
    (p.names ≠ [] ∧ resolve t ⟨p.names.dropLast, false⟩ = .error .ENOENT ∧
      createDir os p t = .error Errno.ENOENT.toIoError t) ∨
    ((∀ d x, Names t p d x → t.look (d ++ [x]) ≠ none) ∧
      resolve t ⟨p.names.dropLast, false⟩ ≠ .error .ENOENT ∧
      ∃ e, e.kind ≠ .notFound ∧ createDir os p t = .error e t) := by
  have hfails : ∀ errno, mkdir os p t = .error errno →
      createDir os p t = .error errno.toIoError t := fun _ hf => effect_of_errno hnul hf
  have hparent : ∀ errno, parentOf t p .EEXIST = .error errno →
      (∀ d x, ¬ Names t p d x) ∧ mkdir os p t = .error errno := fun errno hparent => by
    refine ⟨fun d x hnames => ?_, by unfold mkdir atEntry; rw [hparent]⟩
    rw [parentOf_eq_ok.mpr hnames] at hparent
    cases hparent
  cases hlast : p.names.getLast? with
  | none =>
    have hnil : p.names = [] := List.getLast?_eq_none_iff.mp hlast
    obtain ⟨hno, hf⟩ := hparent .EEXIST (by unfold parentOf; rw [hlast])
    refine .inr (.inr ⟨fun d x hnames => absurd hnames (hno d x), ?_, _, ?_, hfails _ hf⟩)
    · rw [resolve_nil (by rw [hnil]; rfl)]
      nofun
    · decide
  | some x =>
    have hne : p.names ≠ [] := fun hnil => by rw [hnil] at hlast; cases hlast
    have hresolve : resolve t ⟨p.names.dropLast, false⟩
        = (walk t.shape maxLinks [] (p.names.dropLast.map .name)).map Prod.fst := by
      unfold resolve PathBuf.todo
      rw [if_neg Bool.false_ne_true, List.append_nil]
    cases hwalk : walk t.shape maxLinks [] (p.names.dropLast.map .name) with
    | error errno =>
      rw [hwalk] at hresolve
      obtain ⟨hno, hf⟩ := hparent errno (by unfold parentOf; rw [hlast, hwalk]; rfl)
      by_cases hmissing : errno = .ENOENT
      · subst hmissing
        exact .inr (.inl ⟨hne, hresolve, hfails _ hf⟩)
      · refine .inr (.inr ⟨fun d x hnames => absurd hnames (hno d x), ?_, _, ?_, hfails _ hf⟩)
        · rw [hresolve]
          exact fun heq => hmissing (Except.error.inj heq)
        · cases errno <;> first | exact absurd rfl hmissing | decide
    | ok r =>
      obtain ⟨d, n⟩ := r
      rw [hwalk] at hresolve
      have hfound : resolve t ⟨p.names.dropLast, false⟩ ≠ .error .ENOENT := by
        rw [hresolve]
        nofun
      by_cases hdir : t.shape d = some .dir
      · have hnames : Names t p d x := ⟨hlast, ⟨n, hwalk⟩, hdir⟩
        by_cases hfree : t.look (d ++ [x]) = none
        · exact .inl ⟨d, x, hnames, hfree⟩
        · refine .inr (.inr ⟨fun d' x' hnames' => ?_, hfound, _, ?_, hfails .EEXIST ?_⟩)
          · obtain ⟨rfl, rfl⟩ := hnames.unique hnames'
            exact hfree
          · decide
          · unfold mkdir atEntry
            rw [parentOf_eq_ok.mpr hnames]
            exact if_pos hfree
      · obtain ⟨hno, hf⟩ := hparent .ENOTDIR (by
          unfold parentOf
          rw [hlast, hwalk]
          exact if_neg hdir)
        exact .inr (.inr ⟨fun d x hnames => absurd hnames (hno d x), hfound, _, by decide,
          hfails _ hf⟩)

/-! ### All of them -/

/-- Nothing stands at some name on the way, in a directory that is there. -/
def Missing (t : Tree) (names : List Name) : Prop :=
  ∃ front, front <+: names ∧ ∃ d x, Names t ⟨front, false⟩ d x ∧ t.look (d ++ [x]) = none

/-- The path leads to a directory, or nothing stands at some name on its way. -/
def Creatable (t : Tree) (p : PathBuf) : Prop :=
  IsDir t p ∨ p.hasNul = false ∧ Missing t p.names

/-- Such a path leads nowhere. -/
theorem resolve_of_missing (h : Missing t p.names) : resolve t p = .error .ENOENT := by
  obtain ⟨front, ⟨rest, hrest⟩, d, x, hnames, hfree⟩ := h
  have hnone := hnames.resolve_none hfree
  unfold resolve at hnone ⊢
  have htodo : p.todo = (PathBuf.mk front false).todo ++
      (rest.map .name ++ if p.trailing then [.cur] else []) := by
    unfold PathBuf.todo
    rw [← hrest, List.map_append, if_neg Bool.false_ne_true, List.append_nil, List.append_assoc]
  rw [htodo, walk_append]
  cases hwalk : walk t.shape maxLinks [] (PathBuf.mk front false).todo with
  | ok r => rw [hwalk] at hnone; cases hnone
  | error errno => rw [hwalk] at hnone; exact hnone

/-- Where something is missing there is no directory. -/
theorem not_isDir_of_missing (h : Missing t p.names) : ¬ IsDir t p := by
  rintro ⟨q, ⟨-, hres⟩, -⟩
  rw [resolve_of_missing h] at hres
  cases hres

/-- The last name counts, or one before it. -/
theorem missing_iff (hne : p.names ≠ []) : Missing t p.names ↔
    (∃ d x, Names t p d x ∧ t.look (d ++ [x]) = none) ∨ Missing t p.names.dropLast := by
  have hlast := List.dropLast_concat_getLast hne
  constructor
  · rintro ⟨front, hfront, d, x, hnames, hfree⟩
    rw [← hlast, List.prefix_concat_iff, hlast] at hfront
    rcases hfront with rfl | hfront
    · exact .inl ⟨d, x, ⟨hnames.last, hnames.walks, hnames.dir⟩, hfree⟩
    · exact .inr ⟨front, hfront, d, x, hnames, hfree⟩
  · rintro (⟨d, x, hnames, hfree⟩ | ⟨front, hfront, hfree⟩)
    · exact ⟨p.names, List.prefix_refl _, d, x, ⟨hnames.last, hnames.walks, hnames.dir⟩, hfree⟩
    · exact ⟨front, hfront.trans (List.dropLast_prefix _), hfree⟩

/-- An empty directory stands where the path leads. -/
def Emptied (t : Tree) (p : PathBuf) : Prop :=
  ∃ q, Leads t p q ∧ t.shape q = some .dir ∧ ∀ x, t.look (q ++ [x]) = none

/-- Where an empty directory stands there is a directory. -/
theorem Emptied.isDir (h : Emptied t p) : IsDir t p := by
  obtain ⟨q, hleads, hdir, -⟩ := h
  exact ⟨q, hleads, hdir⟩

/-- A path has no NUL that a longer one does not have. -/
theorem hasNul_dropLast (h : p.hasNul = false) :
    (PathBuf.mk p.names.dropLast false).hasNul = false := by
  unfold PathBuf.hasNul at h ⊢
  rw [List.any_eq_false] at h ⊢
  exact fun x hx => h x (List.mem_of_mem_dropLast hx)

/-- A directory that has been created is empty. -/
theorem createDir_of_free (os : Os) (hnul : p.hasNul = false) (hnames : Names t p d x)
    (hfree : t.look (d ++ [x]) = none) :
    ∃ t', createDir os p t = .ok () t' ∧ Added t t' ∧ Emptied t' p := by
  refine ⟨_, createDir_eq_ok.mpr ⟨hnul, d, x, hnames, hfree, rfl⟩,
    (Added.insert rfl hnames.dir hfree).trans (.touch os d), d ++ [x], ⟨hnul, ?_⟩, ?_, fun y => ?_⟩
  · rw [resolve_touch]
    exact hnames.resolve_insert hfree (.inl rfl)
  · rw [Tree.shape_touch]
    exact Tree.shape_of_look (Tree.look_insert_self hnames.dir hfree)
  · have hnone := Tree.look_below_none (List.prefix_append (d ++ [x]) [y]) hfree
    rw [Tree.look_touch_of_ne (by simp), Tree.look_insert_of_ne (by simp)]
    exact hnone

/-- The path of a directory that is to be created in an empty one names a free entry. -/
theorem names_of_emptied (hne : p.names ≠ []) (h : Emptied t ⟨p.names.dropLast, false⟩) :
    ∃ d x, Names t p d x ∧ t.look (d ++ [x]) = none := by
  obtain ⟨d, ⟨-, hres⟩, hdir, hempty⟩ := h
  have hnames := names_join hres hdir (p.names.getLast hne)
  refine ⟨d, p.names.getLast hne, ⟨List.getLast?_eq_some_getLast hne, ?_, hdir⟩, hempty _⟩
  obtain ⟨n, hn⟩ := hnames.walks
  exact ⟨n, by simpa [PathBuf.join] using hn⟩

/-- What a call does that makes a directory with those above it: nothing where it is there; else
    it creates an empty one, if there is room for it on the way; or it fails and changes
    nothing. -/
def Creates (call : EStateM IoError Tree Unit) (t : Tree) (p : PathBuf) : Prop :=
  (IsDir t p ∧ call t = .ok () t) ∨
  ((p.hasNul = false ∧ Missing t p.names) ∧ ∃ t', call t = .ok () t' ∧ Added t t' ∧ Emptied t' p) ∨
  (¬ Creatable t p ∧ ∃ e, call t = .error e t)

/-- Where no directory can be created, the one that may be there counts. -/
theorem createLevel_of_error {e : IoError} (h : createDir os p t = .error e t)
    (hkind : e.kind ≠ .notFound) (hno : p.hasNul = false → ¬ Missing t p.names)
    (above : EStateM IoError Tree Unit) : Creates (createLevel os p above) t p := by
  have hlevel : createLevel os p above t = orDir p (throw e) t := by
    unfold createLevel
    rw [h]
    exact if_neg hkind
  rcases orDir_of_error (p := p) (throw_apply e t) with ⟨hdir, hok⟩ | ⟨hdir, herror⟩
  · exact .inl ⟨hdir, hlevel.trans hok⟩
  · exact .inr (.inr ⟨fun hcreatable => hcreatable.elim hdir fun h => hno h.1 h.2, e,
      hlevel.trans herror⟩)

/-- One level, with what is above it. -/
theorem createLevel_creates (os : Os) {above : EStateM IoError Tree Unit}
    (habove : p.names ≠ [] → Creates above t ⟨p.names.dropLast, false⟩) :
    Creates (createLevel os p above) t p := by
  cases hnul : p.hasNul with
  | true =>
    have herror : createDir os p t = .error nulError t := by
      unfold createDir effect attempt
      dsimp only
      rw [hnul]
      rfl
    exact createLevel_of_error herror (by decide) (fun h => by rw [h] at hnul; cases hnul) above
  | false =>
    rcases createDir_cases (t := t) os hnul with ⟨d, x, hnames, hfree⟩ |
      ⟨hne, hmissing, herror⟩ | ⟨htaken, hfound, e, hkind, herror⟩
    · obtain ⟨t', hok, hcreated⟩ := createDir_of_free os hnul hnames hfree
      refine .inr (.inl ⟨⟨hnul, (missing_iff hnames.names_ne).mpr (.inl ⟨d, x, hnames, hfree⟩)⟩,
        t', ?_, hcreated⟩)
      unfold createLevel
      rw [hok]
    · have hlevel : createLevel os p above t = (do above; orDir p (createDir os p)) t := by
        unfold createLevel
        rw [herror]
        exact if_pos rfl
      have hmissing' : Missing t p.names ↔ Missing t p.names.dropLast := by
        refine (missing_iff hne).trans (or_iff_right ?_)
        rintro ⟨d, x, hnames, -⟩
        rw [hnames.resolve_parent] at hmissing
        cases hmissing
      have hnot : ¬ IsDir t ⟨p.names.dropLast, false⟩ := by
        rintro ⟨q, ⟨-, hres⟩, -⟩
        rw [hmissing] at hres
        cases hres
      rcases habove hne with ⟨hdir, -⟩ | ⟨⟨-, hroom⟩, t', hok, hadded, hempty⟩ | ⟨hno, e, he⟩
      · exact absurd hdir hnot
      · -- the directory above is new and empty
        obtain ⟨d, x, hnames, hfree⟩ := names_of_emptied hne hempty
        obtain ⟨t'', hok', hadded', hempty'⟩ := createDir_of_free os hnul hnames hfree
        exact .inr (.inl ⟨⟨hnul, hmissing'.mpr hroom⟩, t'',
          hlevel.trans ((bind_of_ok hok).trans (orDir_of_ok hok')), hadded.trans hadded', hempty'⟩)
      · refine .inr (.inr ⟨?_, e, hlevel.trans (bind_of_error he)⟩)
        rintro (⟨q, ⟨-, hres⟩, -⟩ | ⟨-, hroom⟩)
        · obtain ⟨d, x, -, hnames, -⟩ := Names.of_resolve hres hne
          rw [hnames.resolve_parent] at hmissing
          cases hmissing
        · exact hno (.inr ⟨hasNul_dropLast hnul, hmissing'.mp hroom⟩)
    · refine createLevel_of_error herror hkind (fun _ hroom => ?_) above
      obtain ⟨front, hfront, hrest⟩ := hroom
      by_cases hne : p.names = []
      · rw [hne] at hfront
        obtain ⟨d, x, hnames, -⟩ := hrest
        exact hnames.names_ne (List.prefix_nil.mp hfront)
      · rcases (missing_iff hne).mp ⟨front, hfront, hrest⟩ with ⟨d, x, hnames, hfree⟩ | hup
        · exact htaken d x hnames hfree
        · exact hfound (resolve_of_missing (p := ⟨p.names.dropLast, false⟩) hup)

/-- **`create_dir_all`**, by recursion over the names of the path. -/
theorem createDirAll_creates (os : Os) (t : Tree) (p : PathBuf) :
    Creates (createDirAll os p) t p := by
  obtain ⟨names, trailing⟩ := p
  induction names using List.reverseRecOn generalizing trailing with
  | nil =>
    have hlevel : createDirAll os ⟨[], trailing⟩ = createLevel os ⟨[], trailing⟩
      (throw ⟨.uncategorized, "failed to create whole tree"⟩) := rfl
    rw [hlevel]
    exact createLevel_creates os fun hne => absurd rfl hne
  | append_singleton up x ih =>
    have hlevel : createDirAll os ⟨up ++ [x], trailing⟩
        = createLevel os ⟨up ++ [x], trailing⟩ (createDirAll os ⟨up, false⟩) := by
      unfold createDirAll
      rw [List.reverse_concat, createUpward, List.reverse_cons, List.reverse_reverse]
    rw [hlevel]
    refine createLevel_creates os fun _ => ?_
    rw [List.dropLast_concat]
    exact ih false

end Fs

end Posix
