import Mathlib.Data.List.Infix

namespace UnixPath

/-!
# Paths as text

A path as Rust's standard library reads and writes it on Unix, over any alphabet that has a
slash and a dot: bytes, or characters.

* `components` — `Path::components`; `push` — `PathBuf::push`, and so `Path::join`.
* `components_push` — pushing a name adds one component, whatever the path was.
* `components_pushAll`, `push_pushAll` — so does every one of many, also if they are pushed
  together as a path of their own.
-/

variable {α : Type} [DecidableEq α] (slash dot : α)

/-- `std::path::Component`. -/
inductive Component (α : Type) where
  | rootDir
  | curDir
  | parentDir
  | normal (part : List α)
  deriving DecidableEq

/-- The component of a segment between slashes, if it is kept: empty ones and dots are not. -/
def segment (part : List α) : Option (Component α) :=
  if part = [] ∨ part = [dot] then none
  else if part = [dot, dot] then some .parentDir
  else some (.normal part)

/-- `Path::components`: a slash in front is a component of its own, and so is a dot. -/
def components (path : List α) : List (Component α) :=
  (if path.head? = some slash then [.rootDir]
    else if (path.splitOn slash).head? = some [dot] then [.curDir] else [])
  ++ (path.splitOn slash).filterMap (segment dot)

/-- `PathBuf::push`: an absolute path replaces the other one. -/
def push (path more : List α) : List α :=
  if more.head? = some slash then more
  else if path = [] ∨ path.getLast? = some slash then path ++ more
  else path ++ slash :: more

/-- Push one after another. -/
def pushAll (path : List α) (names : List (List α)) : List α := names.foldl (push slash) path

/-- A text that is one normal component. -/
structure IsName (name : List α) : Prop where
  no_slash : slash ∉ name
  kept     : segment dot name = some (.normal name)

variable {slash dot} {path name : List α}

namespace IsName

/-- A name is not empty. -/
theorem ne_nil (h : IsName slash dot name) : name ≠ [] := by
  rintro rfl
  have hkept := h.kept
  unfold segment at hkept
  rw [if_pos (.inl rfl)] at hkept
  cases hkept

/-- A name is not a single dot. -/
theorem ne_dot (h : IsName slash dot name) : name ≠ [dot] := by
  rintro rfl
  have hkept := h.kept
  unfold segment at hkept
  rw [if_pos (.inr rfl)] at hkept
  cases hkept

/-- A name does not begin with a slash. -/
theorem head_ne (h : IsName slash dot name) : name.head? ≠ some slash := fun hhead =>
  h.no_slash (List.mem_of_head? hhead)

/-- A name does not end with a slash. -/
theorem getLast_ne (h : IsName slash dot name) : name.getLast? ≠ some slash := fun hlast =>
  h.no_slash (List.mem_of_getLast? hlast)

end IsName

/-- What lies between the slashes holds no slash, and nothing that is not in the path. -/
theorem mem_splitOn {part : List α} (h : part ∈ path.splitOn slash) :
    slash ∉ part ∧ ∀ c ∈ part, c ∈ path := by
  induction path generalizing part with
  | nil =>
    rw [List.splitOn_nil, List.mem_singleton] at h
    subst h
    exact ⟨List.not_mem_nil, fun _ hc => hc⟩
  | cons x path ih =>
    rw [List.splitOn_cons_eq_if_modifyHead] at h
    by_cases hx : x = slash
    · rw [if_pos (beq_iff_eq.mpr hx)] at h
      rcases List.mem_cons.mp h with rfl | hpart
      · exact ⟨List.not_mem_nil, fun _ hc => absurd hc List.not_mem_nil⟩
      · exact ⟨(ih hpart).1, fun c hc => List.mem_cons_of_mem _ ((ih hpart).2 c hc)⟩
    · rw [if_neg (mt beq_iff_eq.mp hx)] at h
      cases hsplit : path.splitOn slash with
      | nil => exact absurd hsplit (List.splitOn_ne_nil _ _)
      | cons first rest =>
        rw [hsplit, List.modifyHead_cons] at h
        rcases List.mem_cons.mp h with rfl | hpart
        · -- the first part grows by `x`
          obtain ⟨hfirst, hsub⟩ := ih (hsplit ▸ List.mem_cons_self)
          refine ⟨fun hmem => ?_, fun c hc => ?_⟩
          · exact (List.mem_cons.mp hmem).elim (fun heq => hx heq.symm) hfirst
          · exact (List.mem_cons.mp hc).elim (fun heq => heq ▸ List.mem_cons_self)
              fun hc => List.mem_cons_of_mem _ (hsub c hc)
        · obtain ⟨hno, hsub⟩ := ih (hsplit ▸ List.mem_cons_of_mem _ hpart)
          exact ⟨hno, fun c hc => List.mem_cons_of_mem _ (hsub c hc)⟩

/-! ### One name more -/

/-- Behind a slash, a text without slashes is a segment. -/
theorem components_append_slash (path : List α) {more : List α} (h : slash ∉ more) :
    components slash dot (path ++ slash :: more)
      = components slash dot (path ++ [slash]) ++ (segment dot more).toList := by
  have hsplit : ∀ more : List α, slash ∉ more →
      (path ++ slash :: more).splitOn slash = path.splitOn slash ++ [more] := by
    intro more hmore
    rw [List.splitOn_append_cons_self, List.splitOn_eq_singleton hmore]
  have hnil := hsplit [] (List.not_mem_nil)
  have hfirst : ∀ more : List α,
      (path.splitOn slash ++ [more]).head? = (path.splitOn slash).head? :=
    fun more => List.head?_append_of_ne_nil _ (List.splitOn_ne_nil _ _)
  have hhead : (path ++ slash :: more).head? = (path ++ [slash]).head? := by
    cases path <;> rfl
  have hempty : segment dot ([] : List α) = none := if_pos (.inl rfl)
  unfold components
  rw [hsplit more h, hnil, hhead, hfirst, hfirst, List.filterMap_append, List.filterMap_append,
    List.filterMap_cons_none hempty, List.filterMap_nil, List.append_nil, List.append_assoc]
  cases hseg : segment dot more with
  | none => rw [List.filterMap_cons_none hseg]; rfl
  | some c => rw [List.filterMap_cons_some hseg]; rfl

/-- A slash at the end says nothing. -/
theorem components_slash (h : path ≠ []) :
    components slash dot (path ++ [slash]) = components slash dot path := by
  have hsplit : (path ++ [slash]).splitOn slash = path.splitOn slash ++ [[]] := by
    rw [List.splitOn_append_cons_self, List.splitOn_nil]
  have hempty : segment dot ([] : List α) = none := if_pos (.inl rfl)
  unfold components
  rw [hsplit, List.head?_append_of_ne_nil _ h,
    List.head?_append_of_ne_nil _ (List.splitOn_ne_nil _ _), List.filterMap_append,
    List.filterMap_cons_none hempty, List.filterMap_nil, List.append_nil]

/-- A name is a path of one component. -/
theorem components_name (h : IsName slash dot name) :
    components slash dot name = [.normal name] := by
  have hdot : [name].head? ≠ some [dot] := fun heq => h.ne_dot (Option.some.inj heq)
  unfold components
  rw [List.splitOn_eq_singleton h.no_slash, if_neg h.head_ne, if_neg hdot, List.nil_append,
    List.filterMap_cons_some h.kept, List.filterMap_nil]

/-- The empty path has no components. -/
theorem components_nil : components slash dot ([] : List α) = [] := by
  have hempty : segment dot ([] : List α) = none := if_pos (.inl rfl)
  unfold components
  rw [List.splitOn_nil, List.filterMap_cons_none hempty, List.filterMap_nil]
  rfl

/-- **Pushing a name adds it** to the components, whatever the path was. -/
theorem components_push (path : List α) (h : IsName slash dot name) :
    components slash dot (push slash path name) = components slash dot path ++ [.normal name] := by
  have hseg : (segment dot name).toList = [.normal name] := by rw [h.kept]; rfl
  unfold push
  rw [if_neg h.head_ne]
  by_cases hnil : path = []
  · subst hnil
    rw [if_pos (.inl rfl), List.nil_append, components_name h, components_nil, List.nil_append]
  by_cases hlast : path.getLast? = some slash
  · -- the slash is already there
    obtain ⟨front, rfl⟩ := List.getLast?_eq_some_iff.mp hlast
    rw [if_pos (.inr hlast), List.append_assoc, List.singleton_append,
      components_append_slash front h.no_slash, hseg]
  · rw [if_neg (not_or.mpr ⟨hnil, hlast⟩), components_append_slash path h.no_slash, hseg,
      components_slash hnil]

/-- Pushing the empty name adds no component. -/
theorem components_push_nil (path : List α) :
    components slash dot (push slash path []) = components slash dot path := by
  unfold push
  rw [if_neg (by rintro ⟨⟩)]
  by_cases hsep : path = [] ∨ path.getLast? = some slash
  · rw [if_pos hsep, List.append_nil]
  · rw [if_neg hsep]
    exact components_slash fun hnil => hsep (.inl hnil)

/-! ### Many names more -/

/-- Pushing names adds them in order. -/
theorem components_pushAll (path : List α) {names : List (List α)}
    (h : ∀ name ∈ names, IsName slash dot name) :
    components slash dot (pushAll slash path names)
      = components slash dot path ++ names.map .normal := by
  induction names generalizing path with
  | nil => exact (List.append_nil _).symm
  | cons name names ih =>
    have hname := h name (List.mem_cons_self ..)
    have hnames := ih (push slash path name) fun n hn => h n (List.mem_cons_of_mem _ hn)
    rw [components_push path hname, List.append_assoc] at hnames
    exact hnames

/-- Pushing a name keeps the first character. -/
theorem head?_push (hpath : path ≠ []) (hname : name.head? ≠ some slash) :
    (push slash path name).head? = path.head? := by
  unfold push
  rw [if_neg hname]
  split <;> exact List.head?_append_of_ne_nil _ hpath

/-- A path that a name was pushed to is not empty. -/
theorem push_ne_nil (path : List α) (h : IsName slash dot name) : push slash path name ≠ [] := by
  unfold push
  rw [if_neg h.head_ne]
  split
  · exact fun heq => h.ne_nil (List.append_eq_nil_iff.mp heq).2
  · exact fun heq => List.cons_ne_nil _ _ (List.append_eq_nil_iff.mp heq).2

/-- Pushing a name to the empty path is the name. -/
theorem push_nil (h : IsName slash dot name) : push slash [] name = name := by
  unfold push
  rw [if_neg h.head_ne, if_pos (.inl rfl), List.nil_append]

/-- What is pushed does not depend on what it is pushed behind. -/
theorem push_push (root : List α) {path name : List α} (hpath : path ≠ [])
    (hhead : path.head? ≠ some slash) (hname : name.head? ≠ some slash) :
    push slash root (push slash path name) = push slash (push slash root path) name := by
  -- behind whatever comes first, a separator is needed after `path` or not
  have hsep : ∀ front : List α,
      push slash (front ++ path) name = front ++ push slash path name := by
    intro front
    have hiff : (front ++ path = [] ∨ (front ++ path).getLast? = some slash) ↔
        (path = [] ∨ path.getLast? = some slash) := by
      rw [List.getLast?_append_of_ne_nil _ hpath]
      exact or_congr_left (iff_of_false (fun h => hpath (List.append_eq_nil_iff.mp h).2) hpath)
    unfold push
    rw [if_neg hname, if_neg hname]
    by_cases h : path = [] ∨ path.getLast? = some slash
    · rw [if_pos h, if_pos (hiff.mpr h), List.append_assoc]
    · rw [if_neg h, if_neg fun h' => h (hiff.mp h'), List.append_assoc]
  have hstart : (push slash path name).head? ≠ some slash := by rwa [head?_push hpath hname]
  have hroot : ∀ more : List α, more.head? ≠ some slash → push slash root more
      = (if root = [] ∨ root.getLast? = some slash then root else root ++ [slash]) ++ more := by
    intro more hmore
    unfold push
    rw [if_neg hmore]
    split
    · rfl
    · rw [List.append_assoc, List.singleton_append]
  rw [hroot _ hstart, hroot _ hhead, hsep]

/-- Names may as well be pushed behind `root` one after another. -/
theorem push_pushAll (root : List α) {names : List (List α)} (hpath : path ≠ [])
    (hhead : path.head? ≠ some slash) (h : ∀ name ∈ names, IsName slash dot name) :
    push slash root (pushAll slash path names) = pushAll slash (push slash root path) names := by
  induction names generalizing path with
  | nil => rfl
  | cons name names ih =>
    have hname := h name (List.mem_cons_self ..)
    have hrest := ih (push_ne_nil path hname) (by rwa [head?_push hpath hname.head_ne])
      fun n hn => h n (List.mem_cons_of_mem _ hn)
    rw [push_push root hpath hhead hname.head_ne] at hrest
    exact hrest

/-- The first of several names begins the path. -/
theorem pushAll_cons {first : List α} (h : IsName slash dot first) (names : List (List α)) :
    pushAll slash [] (first :: names) = pushAll slash first names := by
  show pushAll slash (push slash [] first) names = _
  rw [push_nil h]

/-- Names pushed together, as a path of their own, add the same components. -/
theorem components_push_pushAll (root : List α) {names : List (List α)}
    (h : ∀ name ∈ names, IsName slash dot name) :
    components slash dot (push slash root (pushAll slash [] names))
      = components slash dot root ++ names.map .normal := by
  cases names with
  | nil => rw [List.map_nil, List.append_nil]; exact components_push_nil root
  | cons first names =>
    have hfirst := h first (List.mem_cons_self ..)
    have hnames : ∀ name ∈ names, IsName slash dot name := fun n hn =>
      h n (List.mem_cons_of_mem _ hn)
    rw [pushAll_cons hfirst, push_pushAll root hfirst.ne_nil hfirst.head_ne hnames,
      components_pushAll _ hnames, components_push root hfirst, List.append_assoc]
    rfl

/-- Pushed names are joined by single slashes. -/
theorem pushAll_eq_intercalate {names : List (List α)} (hpath : path ≠ [])
    (hlast : path.getLast? ≠ some slash) (h : ∀ name ∈ names, IsName slash dot name) :
    pushAll slash path names = List.intercalate [slash] (path :: names) := by
  induction names generalizing path with
  | nil => exact List.intercalate_singleton.symm
  | cons name names ih =>
    have hname := h name (List.mem_cons_self ..)
    have hpush : push slash path name = path ++ slash :: name := by
      unfold push
      rw [if_neg hname.head_ne, if_neg (not_or.mpr ⟨hpath, hlast⟩)]
    have hlast' : (path ++ slash :: name).getLast? ≠ some slash := by
      rw [← List.singleton_append, ← List.append_assoc,
        List.getLast?_append_of_ne_nil _ hname.ne_nil]
      exact hname.getLast_ne
    have hrest : pushAll slash (path ++ slash :: name) names
        = List.intercalate [slash] ((path ++ slash :: name) :: names) :=
      ih (by simp) hlast' fun n hn => h n (List.mem_cons_of_mem _ hn)
    show pushAll slash (push slash path name) names = _
    rw [hpush, hrest, List.intercalate_cons_cons]
    cases names with
    | nil => simp [List.intercalate_singleton]
    | cons n names => simp [List.intercalate_cons_cons]

end UnixPath
