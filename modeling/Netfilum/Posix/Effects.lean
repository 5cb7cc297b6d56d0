import Netfilum.Posix.Resolve

namespace Posix

open Program Rust

/-!
# What each call does

Inversion lemmas: a call that succeeds found its entry, met its conditions, and left
exactly this tree.  `SameOutside r t t'` says that nothing changed outside the subtree at
`r`; each edit has one lemma that says when it holds.  `Still` calls move nothing.
-/

variable {os : Os} {t t' t'' : Tree} {p : PathBuf} {d q r : Loc} {x : Name}

namespace Fs

/-- An operation on an entry succeeds where the path names one for which it does. -/
theorem atEntry_eq_ok {α : Type} {e : Errno} {f : Loc → Name → Except Errno α} {a : α} :
    atEntry t p e f = .ok a ↔ ∃ d x, Names t p d x ∧ f d x = .ok a := by
  unfold atEntry
  cases hp : parentOf t p e with
  | error e' =>
    refine iff_of_false (by simp) ?_
    rintro ⟨d, x, hnames, -⟩
    rw [parentOf_eq_ok.mpr hnames] at hp
    cases hp
  | ok r =>
    obtain ⟨d, x⟩ := r
    constructor
    · intro h
      exact ⟨d, x, parentOf_eq_ok.mp hp, h⟩
    · rintro ⟨d', x', hnames, h⟩
      obtain ⟨rfl, rfl⟩ := hnames.unique (parentOf_eq_ok.mp hp)
      exact h

/-- An operation on an object succeeds where there is one for which it does. -/
theorem existing_eq_ok {α : Type} {f : Entry → Except Errno α} {a : α} :
    existing t q f = .ok a ↔ ∃ e, t.look q = some e ∧ f e = .ok a := by
  unfold existing
  cases t.look q <;> simp

/-! ### Reading -/

/-- `canonicalize` returns where the path leads. -/
theorem canonicalize_eq_ok :
    canonicalize p t = .ok q t' ↔ p.hasNul = false ∧ resolve t p = .ok q ∧ t' = t :=
  query_eq_ok

/-- `metadata` is that of the object to which the path leads. -/
theorem metadata_eq_ok {e : Entry} :
    metadata p t = .ok e t' ↔
      p.hasNul = false ∧ (∃ q, resolve t p = .ok q ∧ t.look q = some e) ∧ t' = t := by
  simp only [metadata, query_eq_ok, except_bind_eq_ok, existing_eq_ok, Except.ok.injEq,
    exists_eq_right]

/-- `read_dir` lists the directory to which the path leads. -/
theorem readDir_eq_ok {names : List Name} :
    readDir p t = .ok names t' ↔
      p.hasNul = false ∧ (∃ q, resolve t p = .ok q ∧ t.shape q = some .dir ∧
        (t.children q).filterMap (·.loc.getLast?) = names) ∧ t' = t := by
  simp only [readDir, query_eq_ok, except_bind_eq_ok, ite_error_eq_ok, Except.ok.injEq, ne_eq,
    not_not]

/-- `Path::exists` and its kin never fail. -/
theorem found_apply (ok : Entry → Bool) :
    found p ok t = .ok
      (match metadata p t with
        | .ok e _    => ok e
        | .error _ _ => false) t := by
  unfold found
  cases metadata p t <;> rfl

/-- The path leads to an object, and can be passed to the system. -/
def Leads (t : Tree) (p : PathBuf) (q : Loc) : Prop := p.hasNul = false ∧ resolve t p = .ok q

/-- A path leads to one place only. -/
theorem Leads.unique {q' : Loc} (h : Leads t p q) (h' : Leads t p q') : q = q' := by
  have hres := h.2
  rw [h'.2] at hres
  cases hres
  rfl

/-- The answer to such a question: the object the path leads to meets the condition. -/
theorem found_ok (ok : Entry → Bool) :
    ∃ b, found p ok t = .ok b t ∧
      (b = true ↔ ∃ q e, Leads t p q ∧ t.look q = some e ∧ ok e = true) := by
  refine ⟨_, found_apply ok, ?_⟩
  cases hm : metadata p t with
  | ok e s =>
    obtain ⟨hnul, ⟨q, hq, he⟩, -⟩ := metadata_eq_ok.mp hm
    constructor
    · intro h
      exact ⟨q, e, ⟨hnul, hq⟩, he, h⟩
    · rintro ⟨q', e', hl, he', hok⟩
      obtain rfl := hl.unique ⟨hnul, hq⟩
      rw [he] at he'
      cases he'
      exact hok
  | error e s =>
    refine iff_of_false Bool.false_ne_true ?_
    rintro ⟨q, e', ⟨hnul, hq⟩, he', -⟩
    have hok : metadata p t = .ok e' t := metadata_eq_ok.mpr ⟨hnul, ⟨q, hq, he'⟩, rfl⟩
    rw [hok] at hm
    cases hm

/-- `exists` tells whether the path leads somewhere. -/
theorem pathExists_ok : ∃ b, pathExists p t = .ok b t ∧ (b = true ↔ ∃ q, Leads t p q) := by
  obtain ⟨b, hb, hiff⟩ := found_ok (t := t) (p := p) (fun _ => true)
  refine ⟨b, hb, hiff.trans ⟨fun ⟨q, _, hl, _⟩ => ⟨q, hl⟩, fun ⟨q, hl⟩ => ?_⟩⟩
  obtain ⟨e, he, -⟩ := resolve_look hl.2
  exact ⟨q, e, hl, he, rfl⟩

/-- Whether a path leads to an object of a kind. -/
theorem found_shape_ok (s : Shape) :
    ∃ b, found p (·.shape = s) t = .ok b t ∧
      (b = true ↔ ∃ q, Leads t p q ∧ t.shape q = some s) := by
  obtain ⟨b, hb, hiff⟩ := found_ok (t := t) (p := p) (·.shape = s)
  refine ⟨b, hb, hiff.trans ⟨fun ⟨q, e, hl, he, hs⟩ => ?_, fun ⟨q, hl, hs⟩ => ?_⟩⟩
  · exact ⟨q, hl, Tree.shape_eq_some_iff.mpr ⟨e, he, of_decide_eq_true hs⟩⟩
  · obtain ⟨e, he, hes⟩ := Tree.shape_eq_some_iff.mp hs
    exact ⟨q, e, hl, he, decide_eq_true hes⟩

/-- `is_dir` tells whether the path leads to a directory. -/
theorem isDir_ok : ∃ b, isDir p t = .ok b t ∧
    (b = true ↔ ∃ q, Leads t p q ∧ t.shape q = some .dir) := found_shape_ok .dir

/-- `is_file` tells whether the path leads to a regular file. -/
theorem isFile_ok : ∃ b, isFile p t = .ok b t ∧
    (b = true ↔ ∃ q, Leads t p q ∧ t.shape q = some .file) := found_shape_ok .file

/-! ### Changing entries -/

/-- `remove_file` takes the named entry, no directory, and stamps the one it was in. -/
theorem removeFile_eq_ok {u : Unit} : removeFile os p t = .ok u t' ↔
    p.hasNul = false ∧ ∃ d x, Names t p d x ∧ ∃ e, t.look (d ++ [x]) = some e ∧
      e.shape ≠ .dir ∧ p.trailing = false ∧ (t.prune (d ++ [x])).touch os d = t' := by
  simp only [removeFile, effect_eq_ok, unlink, atEntry_eq_ok, existing_eq_ok, ite_error_eq_ok,
    Except.ok.injEq, ne_eq, Bool.not_eq_true]

/-- `remove_dir` takes the named directory, which is empty, and stamps the one it was in. -/
theorem removeDir_eq_ok {u : Unit} : removeDir os p t = .ok u t' ↔
    p.hasNul = false ∧ ∃ d x, Names t p d x ∧ ∃ e, t.look (d ++ [x]) = some e ∧
      e.shape = .dir ∧ t.children (d ++ [x]) = [] ∧
      (t.prune (d ++ [x])).touch os d = t' := by
  simp only [removeDir, effect_eq_ok, rmdir, atEntry_eq_ok, existing_eq_ok, ite_error_eq_ok,
    Except.ok.injEq, ne_eq, not_not]

/-- `create_dir` makes a directory where the path names nothing. -/
theorem createDir_eq_ok {u : Unit} : createDir os p t = .ok u t' ↔
    p.hasNul = false ∧ ∃ d x, Names t p d x ∧ t.look (d ++ [x]) = none ∧
      (t.insert d x (os.newAttr os.dirPerm) (.dir os.dirSize)).touch os d = t' := by
  simp only [createDir, effect_eq_ok, mkdir, atEntry_eq_ok, ite_error_eq_ok, Except.ok.injEq,
    ne_eq, not_not]

/-- `create_new` makes an empty file where the path names nothing. -/
theorem createNew_eq_ok {u : Unit} : createNew os p t = .ok u t' ↔
    p.hasNul = false ∧ ∃ d x, Names t p d x ∧ p.trailing = false ∧ t.look (d ++ [x]) = none ∧
      (t.insert d x (os.newAttr os.filePerm) (.file [])).touch os d = t' := by
  simp only [createNew, effect_eq_ok, openExcl, atEntry_eq_ok, ite_error_eq_ok, Except.ok.injEq,
    ne_eq, not_not, Bool.not_eq_true]

/-- When an entry can take the place of what is at `dst`, if anything is. -/
def Free (t : Tree) (e : Entry) (dst : Loc) : Prop :=
  ∀ e', t.look dst = some e' →
    if e.shape = .dir then e'.shape = .dir ∧ t.children dst = [] else e'.shape ≠ .dir

/-- A directory replaces an empty directory, and anything else replaces no directory. -/
theorem replaces_eq_ok {e e' : Entry} : replaces t e e' = .ok () ↔
    if e.shape = .dir then e'.shape = .dir ∧ t.children e'.loc = [] else e'.shape ≠ .dir := by
  unfold replaces
  split
  · simp only [ite_error_eq_ok, ne_eq, not_not, and_true]
  · simp only [ite_error_eq_ok, ne_eq, and_true]

/-- What is moved, and where to, is named by the two paths. -/
theorem renamePlan_eq_ok {old new : PathBuf} {src dst : Loc} :
    renamePlan old new t = .ok (src, dst) ↔
      ∃ d x, Names t old d x ∧ ∃ d' x', Names t new d' x' ∧ ∃ e, t.look (d ++ [x]) = some e ∧
        ¬ (e.shape ≠ .dir ∧ (old.trailing = true ∨ new.trailing = true)) ∧
        (src ≠ dst → ¬ src <+: dst ∧ ¬ dst <+: src ∧ Free t e dst) ∧
        d ++ [x] = src ∧ d' ++ [x'] = dst := by
  simp only [renamePlan, atEntry_eq_ok, existing_eq_ok, ite_error_eq_ok]
  refine exists_congr fun d => exists_congr fun x => and_congr_right fun _ =>
    exists_congr fun d' => exists_congr fun x' => and_congr_right fun _ =>
      exists_congr fun e => and_congr_right fun _ => and_congr_right fun _ => ?_
  -- two paths of one entry are always accepted
  by_cases heq : d ++ [x] = d' ++ [x']
  · rw [if_pos heq]
    constructor
    · intro h
      cases h
      exact ⟨fun hne => absurd heq hne, rfl, rfl⟩
    · rintro ⟨-, rfl, rfl⟩
      rfl
  · rw [if_neg heq]
    simp only [ite_error_eq_ok]
    cases hl : t.look (d' ++ [x']) with
    -- nothing to replace
    | none =>
      constructor
      · rintro ⟨hs, hd, h⟩
        cases h
        exact ⟨fun _ => ⟨hs, hd, fun e' he' => by rw [hl] at he'; cases he'⟩, rfl, rfl⟩
      · rintro ⟨h, rfl, rfl⟩
        obtain ⟨hs, hd, -⟩ := h heq
        exact ⟨hs, hd, rfl⟩
    | some e' =>
      simp only [except_map_eq_ok, Prod.mk.injEq]
      have hloc := Tree.look_loc hl
      constructor
      · rintro ⟨hs, hd, ⟨⟩, hfree, rfl, rfl⟩
        refine ⟨fun _ => ⟨hs, hd, fun e'' he'' => ?_⟩, rfl, rfl⟩
        rw [hl] at he''
        cases he''
        rw [← hloc]
        exact replaces_eq_ok.mp hfree
      · rintro ⟨h, rfl, rfl⟩
        obtain ⟨hs, hd, hfree⟩ := h heq
        exact ⟨hs, hd, (), replaces_eq_ok.mpr (by rw [hloc]; exact hfree e' hl), rfl, rfl⟩

/-- `rename` moves what was planned. -/
theorem rename_eq_ok {old new : PathBuf} {u : Unit} :
    rename os old new t = .ok u t' ↔
      old.hasNul = false ∧ new.hasNul = false ∧
        ∃ src dst, renamePlan old new t = .ok (src, dst) ∧ renamed os src dst t = t' := by
  unfold rename
  rw [attempt_eq_ok]
  cases ho : old.hasNul with
  | true => simp
  | false =>
    cases hn : new.hasNul with
    | true => simp
    | false =>
      cases hp : renamePlan old new t with
      | error e => simp [Except.mapError, Except.map]
      | ok plan => obtain ⟨src, dst⟩ := plan; simp [Except.mapError, Except.map]

/-- A rename that fails changes nothing. -/
theorem rename_error {old new : PathBuf} {e : IoError} (h : rename os old new t = .error e t') :
    t' = t := eq_of_attempt_error h

/-! ### Opening -/

/-- A file is opened for reading where the path leads, at its beginning. -/
theorem openRead_eq_ok {f : File} :
    openRead p t = .ok f t' ↔ p.hasNul = false ∧ resolve t p = .ok f.loc ∧ f.pos = 0 ∧ t' = t := by
  simp only [openRead, query_eq_ok, except_map_eq_ok]
  constructor
  · rintro ⟨hnul, ⟨q, hq, rfl⟩, rfl⟩
    exact ⟨hnul, hq, rfl, rfl⟩
  · rintro ⟨hnul, hq, hpos, rfl⟩
    exact ⟨hnul, ⟨f.loc, hq, by rw [← hpos]⟩, rfl⟩

/-- A file is opened for writing where the path leads, if it is a regular file. -/
theorem openWrite_eq_ok {f : File} :
    openWrite p t = .ok f t' ↔
      p.hasNul = false ∧ resolve t p = .ok f.loc ∧ t.shape f.loc = some .file ∧ f.pos = 0 ∧
        t' = t := by
  simp only [openWrite, query_eq_ok, except_bind_eq_ok, ite_error_eq_ok, Except.ok.injEq]
  constructor
  · rintro ⟨hnul, ⟨q, hq, hdir, rfl⟩, rfl⟩
    exact ⟨hnul, hq, (shape_of_resolve hq).resolve_right hdir, rfl, rfl⟩
  · rintro ⟨hnul, hq, hfile, hpos, rfl⟩
    refine ⟨hnul, ⟨f.loc, hq, by rw [hfile]; simp, by rw [← hpos]⟩, rfl⟩

/-! ### Changing attributes -/

/-- `set_permissions` sets the mode and the status-change time of the object. -/
theorem setPermissions_eq_ok {mode : UInt32} {u : Unit} :
    setPermissions os p mode t = .ok u t' ↔
      p.hasNul = false ∧ ∃ q, resolve t p = .ok q ∧
        t.setAttr q (fun a => { a with perm := mode &&& 0o7777, ctime := os.now }) = t' := by
  simp only [setPermissions, effect_eq_ok, except_bind_eq_ok, Except.ok.injEq]

/-- The times of the object change, unless both are to be left alone. -/
theorem setFileTimes_eq_ok {atime mtime : Time} {u : Unit} :
    setFileTimes os p atime mtime t = .ok u t' ↔
      p.hasNul = false ∧ (validTime atime = true ∧ validTime mtime = true) ∧
        if atime.nanos = utimeOmit ∧ mtime.nanos = utimeOmit then t = t'
        else ∃ q, resolve t p = .ok q ∧
          t.setAttr q (fun a => { a with atime := stampTime os a.atime atime,
                                         mtime := stampTime os a.mtime mtime,
                                         ctime := os.now }) = t' := by
  simp only [setFileTimes, effect_eq_ok, ite_error_eq_ok, not_not]
  refine and_congr_right fun _ => and_congr_right fun _ => ?_
  split
  · rw [Except.ok.injEq]
  · simp only [except_bind_eq_ok, Except.ok.injEq]

end Fs

/-! ### What moves nothing -/

/-- The program leaves every object where it is: it adds, removes and moves nothing. -/
abbrev Still {ε α : Type} (x : EStateM ε Tree α) : Prop := Preserves Tree.tag x

/-- What keeps the objects keeps the shapes. -/
theorem Still.shape_eq {ε α : Type} {x : EStateM ε Tree α} {a : α} (h : Still x)
    (hx : x t = .ok a t') : t'.shape = t.shape := Tree.shape_congr (h.eq_of_ok hx)

namespace Fs

/-- An effect keeps the objects if its trees have the same. -/
theorem still_effect {f : Tree → Except Errno Tree}
    (h : ∀ t t', f t = .ok t' → t'.tag = t.tag) : Still (effect p f) := by
  refine .attempt fun t u t' hok => h t t' ?_
  exact (effect_eq_ok.mp (attempt_of_ok hok)).2

/-- New contents change neither shapes nor objects. -/
theorem tag_store (q : Loc) (data : List UInt8) : (store os q data t).tag = t.tag :=
  Tree.tag_setData _ _ _

/-- Writing to a file keeps the objects. -/
theorem still_writeAll (f : File) (data : List UInt8) : Still (writeAll os f data) := by
  intro t
  unfold writeAll
  split
  · rfl
  · cases dataAt t f.loc with
    | none => rfl
    | some old =>
      dsimp only
      split
      · exact tag_store _ _
      · split
        · exact tag_store _ _
        · rfl

/-- Setting the length of a file keeps the objects. -/
theorem still_setLen (f : File) (size : Nat) : Still (setLen os f size) := by
  refine .attempt fun t u t' hok => ?_
  obtain ⟨-, hok⟩ := ite_error_eq_ok.mp hok
  obtain ⟨-, hok⟩ := ite_error_eq_ok.mp hok
  cases hd : dataAt t f.loc with
  | none => rw [hd] at hok; cases hok
  | some old =>
    rw [hd] at hok
    cases hok
    exact tag_store _ _

/-- Setting permissions keeps the objects. -/
theorem still_setPermissions (mode : UInt32) : Still (setPermissions os p mode) := by
  refine still_effect fun t t' hok => ?_
  obtain ⟨q, -, hset⟩ := except_bind_eq_ok.mp hok
  cases hset
  exact Tree.tag_setAttr _ _

/-- Setting times keeps the objects. -/
theorem still_setFileTimes (atime mtime : Time) : Still (setFileTimes os p atime mtime) := by
  refine still_effect fun t t' hok => ?_
  obtain ⟨-, hok⟩ := ite_error_eq_ok.mp hok
  split at hok
  · cases hok
    rfl
  · obtain ⟨q, -, hset⟩ := except_bind_eq_ok.mp hok
    cases hset
    exact Tree.tag_setAttr _ _

end Fs

/-! ### Changes outside a subtree -/

/-- Nothing changed outside the subtree at `r`. -/
def SameOutside (r : Loc) (t t' : Tree) : Prop := ∀ q, ¬ r <+: q → t'.look q = t.look q

namespace SameOutside

/-- Nothing changes. -/
theorem refl (r : Loc) (t : Tree) : SameOutside r t t := fun _ _ => rfl

/-- What is outside stays in steps. -/
theorem trans (h : SameOutside r t t') (h' : SameOutside r t' t'') : SameOutside r t t'' :=
  fun q hq => (h' q hq).trans (h q hq)

/-- New attributes inside are not seen outside. -/
theorem setAttr (hq : r <+: q) (t : Tree) (f : Attr → Attr) : SameOutside r t (t.setAttr q f) := by
  intro p hp
  refine Tree.look_setAttr_of_ne ?_
  rintro rfl
  exact hp hq

/-- New time stamps inside are not seen outside. -/
theorem touch (hq : r <+: q) (t : Tree) (os : Os) : SameOutside r t (t.touch os q) :=
  setAttr hq t _

/-- A removal inside is not seen outside. -/
theorem prune (hq : r <+: q) (t : Tree) : SameOutside r t (t.prune q) := fun _ hp =>
  Tree.look_prune_apart (fun h => hp (hq.trans h))

/-- A new entry inside is not seen outside. -/
theorem insert (hd : r <+: d ++ [x]) (t : Tree) (a : Attr) (b : Body) :
    SameOutside r t (t.insert d x a b) := by
  intro p hp
  refine Tree.look_insert_of_ne ?_
  rintro rfl
  exact hp hd

/-- A move inside is not seen outside. -/
theorem move {src dst : Loc} (hs : r <+: src) (hd : r <+: dst) (t : Tree) :
    SameOutside r t (t.move src dst) := fun _ hp =>
  Tree.look_move_of_apart (fun h => hp (hs.trans h)) (fun h => hp (hd.trans h))

/-- A rename is not seen outside where both directories are inside. -/
theorem renamed {src dst : Loc} (hs : r <+: src.dropLast) (hd : r <+: dst.dropLast) (t : Tree)
    (os : Os) : SameOutside r t (Fs.renamed os src dst t) := by
  unfold Fs.renamed
  split
  · exact .refl r t
  · have hsrc : r <+: src := hs.trans (List.dropLast_prefix src)
    have hdst : r <+: dst := hd.trans (List.dropLast_prefix dst)
    have hmove := (SameOutside.prune hdst t).trans (.move hsrc hdst _)
    have hchanged := hmove.trans (.setAttr hdst _ os.changed)
    exact (hchanged.trans (.touch hs _ os)).trans (.touch hd _ os)

end SameOutside

/-! ### Changes to one entry -/

/-- Nothing changed but the entry at `q`. -/
def SameBut (q : Loc) (t t' : Tree) : Prop := ∀ v, v ≠ q → t'.look v = t.look v

namespace SameBut

/-- Nothing changes. -/
theorem refl (q : Loc) (t : Tree) : SameBut q t t := fun _ _ => rfl

/-- What is elsewhere stays in steps. -/
theorem trans (h : SameBut q t t') (h' : SameBut q t' t'') : SameBut q t t'' :=
  fun v hv => (h' v hv).trans (h v hv)

/-- New attributes are seen at this place only. -/
theorem setAttr (q : Loc) (t : Tree) (f : Attr → Attr) : SameBut q t (t.setAttr q f) :=
  fun _ hv => Tree.look_setAttr_of_ne hv

/-- New contents are seen at this place only. -/
theorem store (q : Loc) (t : Tree) (os : Os) (data : List UInt8) :
    SameBut q t (Fs.store os q data t) := fun _ hv => Tree.look_setData_of_ne hv

/-- A change to one entry stays in every subtree the entry is in. -/
theorem sameOutside (hq : r <+: q) (h : SameBut q t t') : SameOutside r t t' := by
  intro v hv
  refine h v ?_
  rintro rfl
  exact hv hq

end SameBut

/-! ### Removing an entry -/

/-- The directory already carries the current time, so that stamping it does nothing. -/
def Stamped (os : Os) (t : Tree) (d : Loc) : Prop :=
  ∀ e, t.look d = some e → os.modified e.attr = e.attr

/-- A directory that carries this time already does not change. -/
theorem look_touch_of_stamped (h : Stamped os t d) : (t.touch os d).look = t.look := by
  funext q
  rcases eq_or_ne q d with rfl | hq
  · cases he : t.look q with
    | none =>
      rw [← Tree.shape_eq_none_iff, Tree.shape_touch, Tree.shape_eq_none_iff, he]
    | some e =>
      unfold Tree.touch
      rw [Tree.look_setAttr_self he, h e he]
  · exact Tree.look_touch_of_ne hq

/-- A directory that does not carry this time changes. -/
theorem look_touch_of_not_stamped (h : ¬ Stamped os t d) : (t.touch os d).look d ≠ t.look d := by
  intro heq
  refine h fun e he => ?_
  unfold Tree.touch at heq
  rw [Tree.look_setAttr_self he, he] at heq
  injection heq with heq
  exact congrArg Entry.attr heq

/-- An entry's directory is not at or below the entry. -/
theorem not_prefix_dropLast (hq : q ≠ []) : ¬ q <+: q.dropLast := by
  intro h
  have hle := h.length_le
  have hpos := List.length_pos_of_ne_nil hq
  rw [List.length_dropLast] at hle
  omega

/-- An entry of a directory does not lie above it. -/
theorem not_concat_prefix (d : Loc) (x : Name) : ¬ d ++ [x] <+: d := by
  have h := not_prefix_dropLast (q := d ++ [x]) (by simp)
  rwa [List.dropLast_concat] at h

/-- Whether removing the entry `x` of `d` shows outside the subtree at `r`: the entry lies
    outside, or it is the one at `r` and its directory is stamped anew. -/
def Shows (os : Os) (r : Loc) (t : Tree) (d : Loc) (x : Name) : Prop :=
  ¬ r <+: d ∧ (d ++ [x] = r → ¬ Stamped os t d)

/-- The removal of an entry is not seen outside, unless the entry or its directory shows there. -/
theorem sameOutside_remove_iff {e : Entry} (he : t.look (d ++ [x]) = some e) :
    SameOutside r t ((t.prune (d ++ [x])).touch os d) ↔ ¬ Shows os r t d x := by
  have hd : d ≠ d ++ [x] := by simp
  have hapart := not_concat_prefix d x
  have hlookd : (t.prune (d ++ [x])).look d = t.look d := Tree.look_prune_apart hapart
  have hgone : ((t.prune (d ++ [x])).touch os d).look (d ++ [x]) = none := by
    rw [Tree.look_touch_of_ne (Ne.symm hd), Tree.look_prune_below (by simp) (List.prefix_refl _)]
  constructor
  · rintro hsame ⟨hout, hroot⟩
    by_cases heq : d ++ [x] = r
    · -- only the time of the directory can give it away
      have hst : ¬ Stamped os (t.prune (d ++ [x])) d := by
        unfold Stamped
        rw [hlookd]
        exact hroot heq
      exact look_touch_of_not_stamped hst ((hsame d hout).trans hlookd.symm)
    · have hentry : ¬ r <+: d ++ [x] := by
        rw [List.prefix_concat_iff]
        rintro (h | h)
        · exact heq h.symm
        · exact hout h
      -- the entry itself is missing outside
      have := hsame _ hentry
      rw [hgone, he] at this
      cases this
  · intro hns
    by_cases hin : r <+: d
    · exact (SameOutside.prune (hin.trans (List.prefix_append d [x])) t).trans (.touch hin _ os)
    · -- the entry is the subtree, and the stamp does nothing
      have hroot : d ++ [x] = r ∧ Stamped os t d := by
        by_contra hc
        exact hns ⟨hin, fun heq hst => hc ⟨heq, hst⟩⟩
      have hst : Stamped os (t.prune (d ++ [x])) d := by
        unfold Stamped
        rw [hlookd]
        exact hroot.2
      intro q hq
      rw [look_touch_of_stamped hst]
      exact Tree.look_prune_apart (by rw [hroot.1]; exact hq)

/-- A subtree can be moved to where an entry was removed. -/
theorem movable_prune {src dst : Loc} (hs : src ≠ []) (hd : dst ≠ [])
    (hparent : t.shape dst.dropLast = some .dir) (hsd : ¬ src <+: dst) :
    (t.prune dst).Movable src dst where
  src_ne := hs
  dst_ne := hd
  free := Tree.look_prune_below hd (List.prefix_refl dst)
  parent := by rw [Tree.shape_prune hd, if_neg (not_prefix_dropLast hd), hparent]
  apart := hsd

/-- After a rename nothing is left at the source. -/
theorem look_renamed_source {src dst : Loc} (hs : src ≠ []) (hd : dst ≠ [])
    (hparent : t.shape dst.dropLast = some .dir) (hsd : ¬ src <+: dst) (hds : ¬ dst <+: src)
    (hne : src ≠ dst.dropLast) : (Fs.renamed os src dst t).look src = none := by
  have hsrcne : src ≠ src.dropLast := by
    intro h
    refine not_prefix_dropLast hs ?_
    rw [← h]
  have heq : src ≠ dst := fun h => hsd (h ▸ List.prefix_refl src)
  unfold Fs.renamed
  rw [if_neg heq, Tree.look_touch_of_ne hne, Tree.look_touch_of_ne hsrcne,
    Tree.look_setAttr_of_ne heq]
  exact Tree.look_move_source (movable_prune hs hd hparent hsd) hds (List.prefix_refl src)

/-- After a rename the object stands at the new location. -/
theorem tag_renamed {src dst : Loc} (hs : src ≠ []) (hd : dst ≠ [])
    (hparent : t.shape dst.dropLast = some .dir)
    (hapart : src ≠ dst → ¬ src <+: dst ∧ ¬ dst <+: src) :
    (Fs.renamed os src dst t).tag dst = t.tag src := by
  unfold Fs.renamed
  split
  · rename_i heq
    rw [heq]
  · rename_i hne
    obtain ⟨hsd, hds⟩ := hapart hne
    have hlook := Tree.look_move_target (movable_prune hs hd hparent hsd) []
    rw [List.append_nil, List.append_nil, Tree.look_prune_apart hds] at hlook
    rw [Tree.tag_touch, Tree.tag_touch, Tree.tag_setAttr]
    unfold Tree.tag
    rw [hlook, Option.map_map]
    rfl

end Posix
