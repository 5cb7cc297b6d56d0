import Netfilum.Server.Containment

namespace Netfilum

open Posix Program Rust

/-!
# What a request takes away

The entries that a request removes, moves or replaces, and what follows for all others:
paths that pass through none of them lead where they led, to the objects they led to.

* `Takes` — the request removes, moves or replaces the entry at a location.
* `keeps_dispatch` — a route none of whose entries is taken has the same objects afterwards.
-/

variable {srv : RpcServer} {os : Os} {t t' : Tree} {relative : String} {path : PathBuf}
  {toPath : PathBuf} {q v d : Loc} {x : Name} {V : List Loc} {replace : Bool}

namespace RpcServer

/-! ### Taking an entry -/

/-- `RemoveFile` takes the entry at `v`. -/
def TakesFile (srv : RpcServer) (t : Tree) (relative : String) (v : Loc) : Prop :=
  ∃ path q d x e, srv.Existing t relative path q ∧ Names t path d x ∧
    t.look (d ++ [x]) = some e ∧ e.shape ≠ .dir ∧ path.trailing = false ∧ v = d ++ [x]

/-- `RemoveDir` takes the entry at `v`. -/
def TakesDir (srv : RpcServer) (t : Tree) (relative : String) (v : Loc) : Prop :=
  ∃ path q d x e, srv.Existing t relative path q ∧ Names t path d x ∧
    t.look (d ++ [x]) = some e ∧ e.shape = .dir ∧ t.children (d ++ [x]) = [] ∧ v = d ++ [x]

/-- `Rename` makes way for its target, and so takes what is at `v`: the entry that the path
    names, or what lies below a directory that is emptied. -/
inductive Clears (t : Tree) (toPath : PathBuf) (replace : Bool) : Loc → Prop where
  | entry {d : Loc} {x : Name} (hreplace : replace = true) (h : ∃ q, Fs.Leads t toPath q)
      (hnames : Names t toPath d x)
      (htr : toPath.trailing = true → t.shape (d ++ [x]) = some .dir)
      (hway : ¬ Severs t toPath (d ++ [x])) : Clears t toPath replace (d ++ [x])
  | below {q v : Loc} (hreplace : replace = true) (h : Fs.Empties t toPath q) (hv : q <+: v)
      (hne : v ≠ q) : Clears t toPath replace v

/-! ### What is cleared -/

/-- Clearing happens with `replace_if_exists`, where the new path leads somewhere. -/
theorem Clears.leads (h : Clears t toPath replace v) :
    replace = true ∧ ∃ r, Fs.Leads t toPath r := by
  cases h with
  | entry hreplace hl _ _ _ => exact ⟨hreplace, hl⟩
  | below hreplace h _ _ => exact ⟨hreplace, _, h.leads⟩

/-- The directory that is emptied is the entry itself, where the entry goes with it. -/
theorem empties_eq_entry (h : Fs.Empties t toPath q) (hnames : Names t toPath d x)
    (htr : toPath.trailing = true → t.shape (d ++ [x]) = some .dir) : q = d ++ [x] := by
  rcases h.named with htrailing | hnil | ⟨d', x', hnames', rfl⟩
  · obtain ⟨e, he, hq⟩ := hnames.entry_of_resolve h.leads.2
    have hdir := htr htrailing
    rw [Tree.shape_of_look he] at hdir
    exact hq fun tgt htgt => by rw [htgt] at hdir; cases hdir
  · exact absurd hnil hnames.names_ne
  · obtain ⟨rfl, rfl⟩ := hnames.unique hnames'
    rfl

/-- A target that stays is not one that was removed. -/
theorem not_remains_of_entry (hnames : Names t toPath d x)
    (htr : toPath.trailing = true → t.shape (d ++ [x]) = some .dir) : ¬ Remains t toPath := by
  rintro (hnil | ⟨htrailing, d', x', hnames', hne⟩)
  · exact hnames.names_ne hnil
  · obtain ⟨rfl, rfl⟩ := hnames.unique hnames'
    exact hne (htr htrailing)

/-- What is cleared lies at or below the entry, if that is removed. -/
theorem Clears.at_or_below (h : Clears t toPath replace v) (hnames : Names t toPath d x)
    (htr : toPath.trailing = true → t.shape (d ++ [x]) = some .dir) : d ++ [x] <+: v := by
  cases h with
  | entry _ _ hnames' _ _ =>
    obtain ⟨rfl, rfl⟩ := hnames.unique hnames'
    exact List.prefix_refl _
  | below _ h hv _ =>
    rw [empties_eq_entry h hnames htr] at hv
    exact hv

/-- What is cleared lies below the directory that is emptied, if the entry stays. -/
theorem Clears.below_emptied (h : Clears t toPath replace v) (hemptied : Emptied t toPath q) :
    q <+: v ∧ v ≠ q := by
  cases h with
  | @entry d x _ _ hnames htr hway =>
    -- an entry that goes does not stay
    rcases hemptied.remains with hremains | hsevers
    · exact absurd hremains (not_remains_of_entry hnames htr)
    · rw [empties_eq_entry hemptied.empties hnames htr] at hsevers
      exact absurd hsevers hway
  | below _ h hv hne =>
    obtain rfl := h.leads.unique hemptied.empties.leads
    exact ⟨hv, hne⟩

/-! ### What a request removes and moves -/

/-- The request removes the entry at `v`. -/
def Removes (srv : RpcServer) (t : Tree) (v : Loc) : Request → Prop
  | .removeFile path => srv.TakesFile t path v
  | .removeDir path => srv.TakesDir t path v
  | .rename path newPath replace =>
    ∃ fromPath toPath q q', srv.Existing t path fromPath q ∧ srv.ForNew t newPath toPath q' ∧
      Clears t toPath replace v
  | _ => False

/-- The request moves the entry at `v`, or another onto `v`. -/
def Moves (srv : RpcServer) (os : Os) (t : Tree) (v : Loc) : Request → Prop
  | .rename path newPath replace =>
    ∃ fromPath toPath t₁ src dst, srv.Plans os t path newPath replace fromPath toPath t₁ src dst ∧
      src ≠ dst ∧ (v = src ∨ v = dst)
  | _ => False

/-- The request takes the entry at `v`: it removes it, moves it, or puts another in its
    place. -/
def Takes (srv : RpcServer) (os : Os) (t : Tree) (v : Loc) (request : Request) : Prop :=
  srv.Removes t v request ∨ srv.Moves os t v request

/-! ### Routes are kept -/

/-- Two steps keep what is passed if both do. -/
theorem keeps_bind {α β : Type} {x : ServerM α} {f : α → ServerM β}
    (hx : Respects (Keeps V) x t) (hf : ∀ a t', x t = .ok a t' → Respects (Keeps V) (f a) t') :
    Respects (Keeps V) (x >>= f) t := by
  refine Respects.bind ?_ hx hf
  exact Keeps.trans

/-- A step that keeps shapes and objects keeps what is passed. -/
theorem keeps_of_still {ε α : Type} {x : EStateM ε Tree α} (h : Still x) :
    Respects (Keeps V) x t := .of_tag (h t)

/-- A quiet step keeps what is passed. -/
theorem keeps_of_quiet {ε α : Type} {x : EStateM ε Tree α} (h : Quiet x) :
    Respects (Keeps V) x t := keeps_of_still (h.preserves _)

/-- A call keeps what is passed if its effect does. -/
theorem keeps_call {p : PathBuf} {f : Tree → Except Errno Tree}
    (h : ∀ t', Fs.effect p f t = .ok () t' → Keeps V t t') : Respects (Keeps V) (Fs.effect p f) t :=
  .attempt (Keeps.refl _) fun _ t' hok => h t' (attempt_of_ok hok)

/-- `create_entry` keeps what is passed. -/
theorem keeps_createEntry (hV : Route t V) (kind : EntryKind) :
    Respects (Keeps V) (srv.createEntry os relative kind) t := by
  refine keeps_bind (keeps_of_quiet quiet_resolveForNewPath) fun p t1 hp => ?_
  obtain ⟨-, rfl⟩ := resolveForNewPath_eq_ok.mp hp
  cases kind with
  | file =>
    refine keeps_bind (.mapError (keeps_call fun t' hok => ?_)) fun _ t2 _ =>
      keeps_of_quiet (quiet_attrForPath p)
    obtain ⟨-, d, x, -, -, hfree, rfl⟩ := Fs.createNew_eq_ok.mp hok
    exact (Keeps.insert hV hfree).trans (.touch os d)
  | directory =>
    refine keeps_bind (.mapError (keeps_call fun t' hok => ?_)) fun _ t2 _ =>
      keeps_of_quiet (quiet_attrForPath p)
    obtain ⟨-, d, x, -, hfree, rfl⟩ := Fs.createDir_eq_ok.mp hok
    exact (Keeps.insert hV hfree).trans (.touch os d)

/-- Taking away one entry. -/
theorem Keeps.remove (hV : Route t V) {d : Loc} {x : Name} (h : d ++ [x] ∉ V) :
    Keeps V t ((t.prune (d ++ [x])).touch os d) :=
  (Keeps.prune hV (by simp) h).trans (.touch os d)

/-- `remove_file` keeps what is passed, unless it takes something of it. -/
theorem keeps_removeFile (hV : Route t V) (hno : ∀ v ∈ V, ¬ srv.TakesFile t relative v) :
    Respects (Keeps V) (srv.removeFile os relative) t := by
  refine atomic_removeFile.respects (Keeps.refl V) fun u t' hok => ?_
  obtain ⟨p, q, d, x, e, hex, hnames, he, hdir, htr, rfl⟩ := removeFile_eq_ok.mp hok
  exact Keeps.remove hV fun hv => hno _ hv ⟨p, q, d, x, e, hex, hnames, he, hdir, htr, rfl⟩

/-- `remove_dir` keeps what is passed, unless it takes something of it. -/
theorem keeps_removeDir (hV : Route t V) (hno : ∀ v ∈ V, ¬ srv.TakesDir t relative v) :
    Respects (Keeps V) (srv.removeDir os relative) t := by
  refine atomic_removeDir.respects (Keeps.refl V) fun u t' hok => ?_
  obtain ⟨p, q, d, x, e, hex, hnames, he, hdir, hempty, rfl⟩ := removeDir_eq_ok.mp hok
  exact Keeps.remove hV fun hv => hno _ hv ⟨p, q, d, x, e, hex, hnames, he, hdir, hempty, rfl⟩

/-- Clearing the target takes no other entry. -/
theorem Cleared.keeps_route (h : Cleared os t path replace t') (hV : Route t V)
    (hno : ∀ v ∈ V, ¬ Clears t path replace v) : Keeps V t t' := by
  cases h with
  | kept _ => exact .refl V t
  | removed hreplace hl hnames htr hway =>
    exact Keeps.remove hV fun hv => hno _ hv (.entry hreplace hl hnames htr hway)

/-- `rename` keeps what is passed, unless it takes something of it. -/
theorem keeps_rename {from_ to_ : String} (hV : Route t V)
    (hno : ∀ v ∈ V, ¬ srv.Takes os t v (.rename from_ to_ replace)) :
    Respects (Keeps V) (srv.rename os from_ to_ replace) t := by
  refine rename_induct (Keeps V t) (.refl V t) (fun fp tp q q' t₁ hfrom hto hcleared => ?_)
    (fun fp tp q q' r hfrom hto hreplace hemptied => ?_) fun fp tp t₁ src dst hplans hkept => ?_
  · exact hcleared.keeps_route hV fun v hv hc =>
      hno v hv (.inl ⟨fp, tp, q, q', hfrom, hto, hc⟩)
  · refine Fs.keeps_emptied fun v hv hrv => ?_
    by_contra hne
    exact hno v hv (.inl ⟨fp, tp, q, q', hfrom, hto, .below hreplace hemptied.empties hrv hne⟩)
  · obtain ⟨d, x, -, d', x', -, e, -, -, -, rfl, rfl⟩ := Fs.renamePlan_eq_ok.mp hplans.plan
    have hmoves : ∀ v ∈ V, d ++ [x] ≠ d' ++ [x'] → ¬ (v = d ++ [x] ∨ v = d' ++ [x']) :=
      fun v hv hne heq => hno v hv (.inr ⟨fp, tp, t₁, _, _, hplans, hne, heq⟩)
    exact hkept.trans (.renamed (hkept.route hV) (by simp) (by simp)
      (fun hne => ⟨fun hv => hmoves _ hv hne (.inl rfl), fun hv => hmoves _ hv hne (.inr rfl)⟩) os)

/-! ### Every request keeps a route it takes nothing from -/

/-- What is returned at the end does not matter. -/
theorem keeps_then {α : Type} {x : ServerM Unit} {a : α} (h : Respects (Keeps V) x t) :
    Respects (Keeps V) (do x; return a) t :=
  keeps_bind h fun _ _ _ => keeps_of_quiet (.pure a)

/-- A route none of whose entries is taken looks the same afterwards. -/
theorem keeps_dispatch (hV : Route t V) (request : Request)
    (hno : ∀ v ∈ V, ¬ srv.Takes os t v request) :
    Keeps V t (final (srv.dispatch os request t)) := by
  show Respects (Keeps V) (srv.dispatch os request) t
  cases request with
  | stat path | «open» path => exact keeps_of_quiet (.map quiet_statPath)
  | create path kind attributes size => exact .map (keeps_createEntry hV kind)
  | readDir path => exact keeps_of_quiet (.map quiet_readDir)
  | read path offset length => exact keeps_of_quiet (.map (quiet_readFile offset length))
  | write path offset data toEof => exact keeps_of_still (still_writeFile offset data toEof)
  | canDelete path kind => exact keeps_then (keeps_of_quiet (quiet_canDelete kind))
  | removeFile path =>
    exact keeps_then (keeps_removeFile hV fun v hv h => hno v hv (.inl h))
  | removeDir path =>
    exact keeps_then (keeps_removeDir hV fun v hv h => hno v hv (.inl h))
  | rename path newPath replace => exact keeps_then (keeps_rename hV hno)
  | setLen path size allocation => exact keeps_of_still (.map (still_setLen size allocation))
  | flush path => exact keeps_then (keeps_of_quiet (quiet_flush path))
  | setBasicInfo path update => exact keeps_of_still (.map (still_setBasicInfo update))
  | getVolumeInfo => exact keeps_of_quiet (.map quiet_volumeInfo)

end RpcServer

end Netfilum
