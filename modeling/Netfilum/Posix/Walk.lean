import Netfilum.Posix.Tree

namespace Posix

/-!
# Walking a path

Path resolution, over nothing but the shapes `σ` found at locations.  `walk σ n d todo`
follows the components `todo` from the directory `d`, expanding at most `n` symbolic
links on the way, and returns the location reached with the number of links left.

* `walk_append` — walking a path is walking its first part and then the rest;
* `walk_mono` — in a smaller tree a walk fails or ends where it ended before;
* `walk_meet` — a walk that succeeds in two trees succeeds in what they share;
* `visits` — the locations a walk looks at, successful or not;  `walk_congr` — two trees
  that agree on them walk alike;  `visits_above` — a walk looks at every directory on
  the way down;  `visits_exist` — all of it exists when the walk succeeds;
* `walk_names` — a canonical path leads to its own location.

The induction they share is packaged once, as `walk_induct`.
-/

/-- The error numbers the calls of this development can return. -/
inductive Errno where
  | ENOENT | EEXIST | ENOTDIR | EISDIR | ENOTEMPTY | EINVAL | ELOOP | EBUSY | EFBIG
  deriving DecidableEq, Repr

/-- Where the target of a link found in directory `d` starts. -/
def Target.from (tgt : Target) (d : Loc) : Loc := if tgt.absolute then [] else d

/-- Walk without expanding links; a link met on the way is handed to `k`. -/
def walkSeg (σ : Loc → Option Shape) (n : Nat) (k : Loc → List Comp → Except Errno (Loc × Nat)) :
    Loc → List Comp → Except Errno (Loc × Nat)
  | d, [] => .ok (d, n)
  | d, c :: rest =>
    match σ d with
    | none => .error .ENOENT
    | some .dir =>
      match c with
      | .cur => walkSeg σ n k d rest
      | .up => walkSeg σ n k d.dropLast rest
      | .name x =>
        match σ (d ++ [x]) with
        | none => .error .ENOENT
        | some (.symlink tgt) => k (tgt.from d) (tgt.comps ++ rest)
        | some _ => walkSeg σ n k (d ++ [x]) rest
    | some _ => .error .ENOTDIR

/-- Walk the components `todo` from directory `d`, expanding at most `n` links. -/
def walk (σ : Loc → Option Shape) : Nat → Loc → List Comp → Except Errno (Loc × Nat)
  | 0     => walkSeg σ 0 (fun _ _ => .error .ELOOP)
  | n + 1 => walkSeg σ (n + 1) (walk σ n)

variable {σ σ' : Loc → Option Shape} {n : Nat} {d : Loc} {x : Name} {rest : List Comp}

/-! ### One step -/

/-- Without components the walk has ended. -/
@[simp] theorem walk_nil : walk σ n d [] = .ok (d, n) := by
  cases n <;> rfl

/-- From a place that is gone there is no way on. -/
theorem walk_gone {c : Comp} (h : σ d = none) : walk σ n d (c :: rest) = .error .ENOENT := by
  cases n <;> simp only [walk, walkSeg, h]

/-- From what is no directory there is no way on. -/
theorem walk_leaf {c : Comp} {s : Shape} (h : σ d = some s) (hs : s ≠ .dir) :
    walk σ n d (c :: rest) = .error .ENOTDIR := by
  cases s with
  | dir => exact absurd rfl hs
  | file => cases n <;> simp only [walk, walkSeg, h]
  | symlink tgt => cases n <;> simp only [walk, walkSeg, h]

/-- A dot stays where it is. -/
theorem walk_cur (h : σ d = some .dir) : walk σ n d (.cur :: rest) = walk σ n d rest := by
  cases n <;> simp only [walk, walkSeg, h]

/-- Two dots go up. -/
theorem walk_up (h : σ d = some .dir) :
    walk σ n d (.up :: rest) = walk σ n d.dropLast rest := by
  cases n <;> simp only [walk, walkSeg, h]

/-- A name that nobody has ends the walk. -/
theorem walk_missing (h : σ d = some .dir) (hx : σ (d ++ [x]) = none) :
    walk σ n d (.name x :: rest) = .error .ENOENT := by
  cases n <;> simp only [walk, walkSeg, h, hx]

/-- A link behind the last that is allowed ends the walk. -/
theorem walk_loop {tgt : Target} (h : σ d = some .dir) (hx : σ (d ++ [x]) = some (.symlink tgt)) :
    walk σ 0 d (.name x :: rest) = .error .ELOOP := by
  simp only [walk, walkSeg, h, hx]

/-- A link is followed, and counted. -/
theorem walk_link {tgt : Target} (h : σ d = some .dir) (hx : σ (d ++ [x]) = some (.symlink tgt)) :
    walk σ (n + 1) d (.name x :: rest) = walk σ n (tgt.from d) (tgt.comps ++ rest) := by
  simp only [walk, walkSeg, h, hx]

/-- A name that is no link is entered. -/
theorem walk_entry {s : Shape} (h : σ d = some .dir) (hx : σ (d ++ [x]) = some s)
    (hs : ∀ tgt, s ≠ .symlink tgt) :
    walk σ n d (.name x :: rest) = walk σ n (d ++ [x]) rest := by
  cases s with
  | symlink tgt => exact absurd rfl (hs tgt)
  | file => cases n <;> simp only [walk, walkSeg, h, hx]
  | dir => cases n <;> simp only [walk, walkSeg, h, hx]

/-- Induction over what is left to walk, with the steps into links given. -/
theorem segment_induct {P : Loc → List Comp → Prop} (σ : Loc → Option Shape)
    (nil : ∀ d, P d [])
    (gone : ∀ d c rest, σ d = none → P d (c :: rest))
    (leaf : ∀ d c rest s, σ d = some s → s ≠ .dir → P d (c :: rest))
    (cur : ∀ d rest, σ d = some .dir → P d rest → P d (.cur :: rest))
    (up : ∀ d rest, σ d = some .dir → P d.dropLast rest → P d (.up :: rest))
    (missing : ∀ d x rest, σ d = some .dir → σ (d ++ [x]) = none → P d (.name x :: rest))
    (link : ∀ d x rest tgt, σ d = some .dir → σ (d ++ [x]) = some (.symlink tgt) →
      P d (.name x :: rest))
    (entry : ∀ d x rest s, σ d = some .dir → σ (d ++ [x]) = some s →
      (∀ tgt, s ≠ .symlink tgt) → P (d ++ [x]) rest → P d (.name x :: rest))
    (d : Loc) (todo : List Comp) : P d todo := by
  induction todo generalizing d with
  | nil => exact nil d
  | cons c rest ih =>
    cases hd : σ d with
    | none => exact gone d c rest hd
    | some s =>
      by_cases hs : s = .dir
      · subst hs
        cases c with
        | cur => exact cur d rest hd (ih d)
        | up => exact up d rest hd (ih _)
        | name x =>
          cases hx : σ (d ++ [x]) with
          | none => exact missing d x rest hd hx
          | some s =>
            cases s with
            | symlink tgt => exact link d x rest tgt hd hx
            | file => exact entry d x rest .file hd hx (by simp) (ih _)
            | dir => exact entry d x rest .dir hd hx (by simp) (ih _)
      · exact leaf d c rest s hd hs

/-- **Induction along a walk**, one case per step the walk can take. -/
theorem walk_induct {P : Nat → Loc → List Comp → Prop} (σ : Loc → Option Shape)
    (nil : ∀ n d, P n d [])
    (gone : ∀ n d c rest, σ d = none → P n d (c :: rest))
    (leaf : ∀ n d c rest s, σ d = some s → s ≠ .dir → P n d (c :: rest))
    (cur : ∀ n d rest, σ d = some .dir → P n d rest → P n d (.cur :: rest))
    (up : ∀ n d rest, σ d = some .dir → P n d.dropLast rest → P n d (.up :: rest))
    (missing : ∀ n d x rest, σ d = some .dir → σ (d ++ [x]) = none → P n d (.name x :: rest))
    (loop : ∀ d x rest tgt, σ d = some .dir → σ (d ++ [x]) = some (.symlink tgt) →
      P 0 d (.name x :: rest))
    (link : ∀ n d x rest tgt, σ d = some .dir → σ (d ++ [x]) = some (.symlink tgt) →
      P n (tgt.from d) (tgt.comps ++ rest) → P (n + 1) d (.name x :: rest))
    (entry : ∀ n d x rest s, σ d = some .dir → σ (d ++ [x]) = some s →
      (∀ tgt, s ≠ .symlink tgt) → P n (d ++ [x]) rest → P n d (.name x :: rest))
    (n : Nat) (d : Loc) (todo : List Comp) : P n d todo := by
  induction n generalizing d todo with
  | zero =>
    -- no link may be followed any more
    exact segment_induct σ (nil 0) (gone 0) (leaf 0) (cur 0) (up 0) (missing 0) loop (entry 0)
      d todo
  | succ n ih =>
    refine segment_induct σ (nil _) (gone _) (leaf _) (cur _) (up _) (missing _) ?_ (entry _)
      d todo
    intro d x rest tgt hd hx
    exact link n d x rest tgt hd hx (ih _ _)

/-! ### Composition -/

/-- Walking a path is walking its first part and then the rest. -/
theorem walk_append (n : Nat) (d : Loc) (todo rest : List Comp) :
    walk σ n d (todo ++ rest) = walk σ n d todo >>= fun p => walk σ p.2 p.1 rest := by
  induction n, d, todo using walk_induct σ with
  | nil n d =>
    rw [List.nil_append, walk_nil]; rfl
  | gone n d c todo h =>
    rw [List.cons_append, walk_gone h, walk_gone h]; rfl
  | leaf n d c todo s h hs =>
    rw [List.cons_append, walk_leaf h hs, walk_leaf h hs]; rfl
  | cur n d todo h ih =>
    rw [List.cons_append, walk_cur h, walk_cur h, ih]
  | up n d todo h ih =>
    rw [List.cons_append, walk_up h, walk_up h, ih]
  | missing n d x todo h hx =>
    rw [List.cons_append, walk_missing h hx, walk_missing h hx]; rfl
  | loop d x todo tgt h hx =>
    rw [List.cons_append, walk_loop h hx, walk_loop h hx]; rfl
  | link n d x todo tgt h hx ih =>
    rw [List.cons_append, walk_link h hx, walk_link h hx, ← ih, List.append_assoc]
  | entry n d x todo s h hx hs ih =>
    rw [List.cons_append, walk_entry h hx hs, walk_entry h hx hs, ih]

/-- `σ'` finds no more than `σ`. -/
def Fewer (σ' σ : Loc → Option Shape) : Prop := ∀ q s, σ' q = some s → σ q = some s

/-- In a smaller tree a walk fails or ends where it ended before. -/
theorem walk_mono (hsub : Fewer σ' σ) (n : Nat) (d : Loc) (todo : List Comp) (r : Loc × Nat)
    (h : walk σ' n d todo = .ok r) : walk σ n d todo = .ok r := by
  induction n, d, todo using walk_induct σ' with
  | nil n d => rwa [walk_nil] at h ⊢
  | gone n d c todo hd => rw [walk_gone hd] at h; cases h
  | leaf n d c todo s hd hs => rw [walk_leaf hd hs] at h; cases h
  | cur n d todo hd ih =>
    rw [walk_cur hd] at h
    rw [walk_cur (hsub _ _ hd)]; exact ih h
  | up n d todo hd ih =>
    rw [walk_up hd] at h
    rw [walk_up (hsub _ _ hd)]; exact ih h
  | missing n d x todo hd hx => rw [walk_missing hd hx] at h; cases h
  | loop d x todo tgt hd hx => rw [walk_loop hd hx] at h; cases h
  | link n d x todo tgt hd hx ih =>
    rw [walk_link hd hx] at h
    rw [walk_link (hsub _ _ hd) (hsub _ _ hx)]; exact ih h
  | entry n d x todo s hd hx hs ih =>
    rw [walk_entry hd hx hs] at h
    rw [walk_entry (hsub _ _ hd) (hsub _ _ hx) hs]; exact ih h

/-- `σ` finds what both `σ₁` and `σ₂` find. -/
structure Meet (σ σ₁ σ₂ : Loc → Option Shape) : Prop where
  left  : Fewer σ σ₁
  right : Fewer σ σ₂
  none  : ∀ q, σ q = none → σ₁ q = none ∨ σ₂ q = none

/-- A walk that succeeds in two trees meets in both of them only what they share. -/
theorem walk_meet {σ₁ σ₂ : Loc → Option Shape} (hmeet : Meet σ σ₁ σ₂) (n : Nat) (d : Loc)
    (todo : List Comp) (r r' : Loc × Nat) (h₁ : walk σ₁ n d todo = .ok r)
    (h₂ : walk σ₂ n d todo = .ok r') : walk σ n d todo = .ok r := by
  induction n, d, todo using walk_induct σ with
  | nil n d => rwa [walk_nil] at h₁ ⊢
  | gone n d c todo hd =>
    rcases hmeet.none d hd with hd | hd
    · rw [walk_gone hd] at h₁; cases h₁
    · rw [walk_gone hd] at h₂; cases h₂
  | leaf n d c todo s hd hs => rw [walk_leaf (hmeet.left _ _ hd) hs] at h₁; cases h₁
  | cur n d todo hd ih =>
    rw [walk_cur (hmeet.left _ _ hd)] at h₁
    rw [walk_cur (hmeet.right _ _ hd)] at h₂
    rw [walk_cur hd]; exact ih h₁ h₂
  | up n d todo hd ih =>
    rw [walk_up (hmeet.left _ _ hd)] at h₁
    rw [walk_up (hmeet.right _ _ hd)] at h₂
    rw [walk_up hd]; exact ih h₁ h₂
  | missing n d x todo hd hx =>
    -- one of the two trees lacks the entry as well
    rcases hmeet.none _ hx with hx | hx
    · rw [walk_missing (hmeet.left _ _ hd) hx] at h₁; cases h₁
    · rw [walk_missing (hmeet.right _ _ hd) hx] at h₂; cases h₂
  | loop d x todo tgt hd hx =>
    rw [walk_loop (hmeet.left _ _ hd) (hmeet.left _ _ hx)] at h₁; cases h₁
  | link n d x todo tgt hd hx ih =>
    rw [walk_link (hmeet.left _ _ hd) (hmeet.left _ _ hx)] at h₁
    rw [walk_link (hmeet.right _ _ hd) (hmeet.right _ _ hx)] at h₂
    rw [walk_link hd hx]; exact ih h₁ h₂
  | entry n d x todo s hd hx hs ih =>
    rw [walk_entry (hmeet.left _ _ hd) (hmeet.left _ _ hx) hs] at h₁
    rw [walk_entry (hmeet.right _ _ hd) (hmeet.right _ _ hx) hs] at h₂
    rw [walk_entry hd hx hs]; exact ih h₁ h₂

/-- A walk from a directory ends at something that exists and is not a link. -/
theorem walk_exists (n : Nat) (d : Loc) (todo : List Comp) (r : Loc × Nat)
    (hroot : σ [] = some .dir) (hup : ∀ q, q ≠ [] → σ q ≠ none → σ q.dropLast = some .dir)
    (hd : σ d = some .dir) (h : walk σ n d todo = .ok r) :
    σ r.1 = some .file ∨ σ r.1 = some .dir := by
  -- the entry the walk stands on may be a file, so the induction speaks of every shape
  suffices ∀ s, σ d = some s → (∀ tgt, s ≠ .symlink tgt) →
      σ r.1 = some .file ∨ σ r.1 = some .dir from this .dir hd (by simp)
  clear hd
  induction n, d, todo using walk_induct σ with
  | nil n d =>
    intro s hd hs
    rw [walk_nil] at h
    cases h
    cases s with
    | file => exact .inl hd
    | dir => exact .inr hd
    | symlink tgt => exact absurd rfl (hs tgt)
  | gone n d c todo hd => rw [walk_gone hd] at h; cases h
  | leaf n d c todo s hd hs => rw [walk_leaf hd hs] at h; cases h
  | cur n d todo hd ih =>
    rw [walk_cur hd] at h
    exact ih h
  | up n d todo hd ih =>
    rw [walk_up hd] at h
    intro _ _ _
    rcases eq_or_ne d [] with rfl | hne
    · -- `..` in the root directory stays there
      exact ih h .dir hroot (by simp)
    · exact ih h .dir (hup d hne (by simp [hd])) (by simp)
  | missing n d x todo hd hx => rw [walk_missing hd hx] at h; cases h
  | loop d x todo tgt hd hx => rw [walk_loop hd hx] at h; cases h
  | link n d x todo tgt hd hx ih =>
    rw [walk_link hd hx] at h
    intro _ _ _
    refine ih h .dir ?_ (by simp)
    unfold Target.from
    split
    · exact hroot
    · exact hd
  | entry n d x todo s hd hx hs ih =>
    rw [walk_entry hd hx hs] at h
    intro _ _ _
    exact ih h s hx hs

/-- A canonical path leads to its own location: directories all the way down, and no link
    at the end. -/
theorem walk_names {s : Shape} (n : Nat) (d r : Loc)
    (hdirs : ∀ p, d <+: p → p <+: d ++ r → p ≠ d ++ r → σ p = some .dir)
    (hend : σ (d ++ r) = some s) (hs : ∀ tgt, s ≠ .symlink tgt) :
    walk σ n d (r.map .name) = .ok (d ++ r, n) := by
  induction r generalizing d with
  | nil => simp
  | cons x r ih =>
    have hd : σ d = some .dir :=
      hdirs d (List.prefix_refl d) (List.prefix_append d _) (by simp)
    have hsplit : d ++ x :: r = (d ++ [x]) ++ r := by simp
    rw [hsplit] at hdirs hend
    obtain ⟨s', hx, hs'⟩ : ∃ s', σ (d ++ [x]) = some s' ∧ ∀ tgt, s' ≠ .symlink tgt := by
      rcases eq_or_ne r [] with rfl | hr
      · exact ⟨s, by simpa using hend, hs⟩
      · exact ⟨.dir, hdirs _ (List.prefix_append d _) (List.prefix_append _ r) (by simp [hr]),
          by simp⟩
    rw [List.map_cons, walk_entry hd hx hs', hsplit]
    exact ih (d ++ [x])
      (fun p hp hq hne => hdirs p ((List.prefix_append d _).trans hp) hq hne) hend

/-- Where there are no links, a walk of names ends where the names say. -/
theorem walk_names_eq {q : Loc} {m : Nat} (r : Loc)
    (hlink : ∀ u tgt, σ (d ++ u) ≠ some (.symlink tgt))
    (h : walk σ n d (r.map .name) = .ok (q, m)) : q = d ++ r ∧ m = n := by
  induction r generalizing d with
  | nil =>
    rw [List.map_nil, walk_nil] at h
    cases h
    exact ⟨by rw [List.append_nil], rfl⟩
  | cons x r ih =>
    rw [List.map_cons] at h
    cases hd : σ d with
    | none => rw [walk_gone hd] at h; cases h
    | some s =>
      by_cases hs : s = .dir
      · subst hs
        cases hx : σ (d ++ [x]) with
        | none => rw [walk_missing hd hx] at h; cases h
        | some s =>
          have hne : ∀ tgt, s ≠ .symlink tgt := by
            rintro tgt rfl
            exact hlink [x] tgt hx
          rw [walk_entry hd hx hne] at h
          have hbelow : ∀ u tgt, σ (d ++ [x] ++ u) ≠ some (.symlink tgt) := fun u tgt => by
            rw [List.append_assoc]
            exact hlink _ tgt
          obtain ⟨hq, hm⟩ := ih hbelow h
          exact ⟨by rw [hq, List.append_assoc]; rfl, hm⟩
      · rw [walk_leaf hd hs] at h; cases h

/-! ### The locations a walk looks at -/

/-- As `walkSeg`: the locations looked at before a link is handed over. -/
def visitsSeg (σ : Loc → Option Shape) (k : Loc → List Comp → List Loc) :
    Loc → List Comp → List Loc
  | _, [] => []
  | d, c :: rest =>
    d :: match σ d with
      | some .dir =>
        match c with
        | .cur => visitsSeg σ k d rest
        | .up => visitsSeg σ k d.dropLast rest
        | .name x =>
          (d ++ [x]) :: match σ (d ++ [x]) with
            | none => []
            | some (.symlink tgt) => k (tgt.from d) (tgt.comps ++ rest)
            | some _ => visitsSeg σ k (d ++ [x]) rest
      | _ => []

/-- The locations `walk σ n d todo` looks at. -/
def visits (σ : Loc → Option Shape) : Nat → Loc → List Comp → List Loc
  | 0     => visitsSeg σ (fun _ _ => [])
  | n + 1 => visitsSeg σ (visits σ n)

/-- Without components nothing is visited. -/
theorem visits_nil : visits σ n d [] = [] := by cases n <;> rfl

/-- From a place that is gone only this is visited. -/
theorem visits_gone {c : Comp} (h : σ d = none) : visits σ n d (c :: rest) = [d] := by
  cases n <;> simp only [visits, visitsSeg, h]

/-- From what is no directory only this is visited. -/
theorem visits_leaf {c : Comp} {s : Shape} (h : σ d = some s) (hs : s ≠ .dir) :
    visits σ n d (c :: rest) = [d] := by
  cases s with
  | dir => exact absurd rfl hs
  | file => cases n <;> simp only [visits, visitsSeg, h]
  | symlink tgt => cases n <;> simp only [visits, visitsSeg, h]

/-- A dot visits the place once more. -/
theorem visits_cur (h : σ d = some .dir) :
    visits σ n d (.cur :: rest) = d :: visits σ n d rest := by
  cases n <;> simp only [visits, visitsSeg, h]

/-- Two dots go on above. -/
theorem visits_up (h : σ d = some .dir) :
    visits σ n d (.up :: rest) = d :: visits σ n d.dropLast rest := by
  cases n <;> simp only [visits, visitsSeg, h]

/-- A name that nobody has is the last that is visited. -/
theorem visits_missing (h : σ d = some .dir) (hx : σ (d ++ [x]) = none) :
    visits σ n d (.name x :: rest) = [d, d ++ [x]] := by
  cases n <;> simp only [visits, visitsSeg, h, hx]

/-- A link behind the last that is allowed is the last that is visited. -/
theorem visits_loop {tgt : Target} (h : σ d = some .dir)
    (hx : σ (d ++ [x]) = some (.symlink tgt)) :
    visits σ 0 d (.name x :: rest) = [d, d ++ [x]] := by
  simp only [visits, visitsSeg, h, hx]

/-- A link is visited, and then what it leads to. -/
theorem visits_link {tgt : Target} (h : σ d = some .dir)
    (hx : σ (d ++ [x]) = some (.symlink tgt)) :
    visits σ (n + 1) d (.name x :: rest)
      = d :: (d ++ [x]) :: visits σ n (tgt.from d) (tgt.comps ++ rest) := by
  simp only [visits, visitsSeg, h, hx]

/-- A name that is no link is visited, and then what is behind it. -/
theorem visits_entry {s : Shape} (h : σ d = some .dir) (hx : σ (d ++ [x]) = some s)
    (hs : ∀ tgt, s ≠ .symlink tgt) :
    visits σ n d (.name x :: rest) = d :: (d ++ [x]) :: visits σ n (d ++ [x]) rest := by
  cases s with
  | symlink tgt => exact absurd rfl (hs tgt)
  | file => cases n <;> simp only [visits, visitsSeg, h, hx]
  | dir => cases n <;> simp only [visits, visitsSeg, h, hx]

/-- A walk that goes on looks at what its two parts look at. -/
theorem visits_append {q : Loc} {m : Nat} (n : Nat) (d : Loc) (todo : List Comp)
    (h : walk σ n d todo = .ok (q, m)) :
    visits σ n d (todo ++ rest) = visits σ n d todo ++ visits σ m q rest := by
  induction n, d, todo using walk_induct σ with
  | nil n d =>
    rw [walk_nil] at h
    cases h
    rw [visits_nil]
    rfl
  | gone n d c todo hd => rw [walk_gone hd] at h; cases h
  | leaf n d c todo s hd hs => rw [walk_leaf hd hs] at h; cases h
  | cur n d todo hd ih =>
    rw [walk_cur hd] at h
    rw [List.cons_append, visits_cur hd, visits_cur hd, ih h, List.cons_append]
  | up n d todo hd ih =>
    rw [walk_up hd] at h
    rw [List.cons_append, visits_up hd, visits_up hd, ih h, List.cons_append]
  | missing n d x todo hd hx => rw [walk_missing hd hx] at h; cases h
  | loop d x todo tgt hd hx => rw [walk_loop hd hx] at h; cases h
  | link n d x todo tgt hd hx ih =>
    rw [walk_link hd hx] at h
    rw [List.cons_append, visits_link hd hx, visits_link hd hx, ← List.append_assoc, ih h]
    rfl
  | entry n d x todo s hd hx hs ih =>
    rw [walk_entry hd hx hs] at h
    rw [List.cons_append, visits_entry hd hx hs, visits_entry hd hx hs, ih h]
    rfl

/-- **Frame.**  Trees that agree on what a walk looks at walk alike. -/
theorem walk_congr (n : Nat) (d : Loc) (todo : List Comp)
    (h : ∀ q ∈ visits σ n d todo, σ' q = σ q) :
    walk σ' n d todo = walk σ n d todo ∧ visits σ' n d todo = visits σ n d todo := by
  induction n, d, todo using walk_induct σ with
  | nil n d => simp [visits_nil]
  | gone n d c todo hd =>
    rw [visits_gone hd] at h ⊢
    -- both walks look at the same locations and see the same there
    have hd' : σ' d = none := by rw [h d (by simp), hd]
    rw [walk_gone hd, walk_gone hd', visits_gone hd']
    exact ⟨rfl, rfl⟩
  | leaf n d c todo s hd hs =>
    rw [visits_leaf hd hs] at h ⊢
    have hd' : σ' d = some s := by rw [h d (by simp), hd]
    rw [walk_leaf hd hs, walk_leaf hd' hs, visits_leaf hd' hs]
    exact ⟨rfl, rfl⟩
  | cur n d todo hd ih =>
    rw [visits_cur hd] at h ⊢
    have hd' : σ' d = some .dir := by rw [h d (by simp), hd]
    obtain ⟨hw, hv⟩ := ih (fun q hq => h q (List.mem_cons_of_mem _ hq))
    rw [walk_cur hd, walk_cur hd', visits_cur hd', hw, hv]
    exact ⟨rfl, rfl⟩
  | up n d todo hd ih =>
    rw [visits_up hd] at h ⊢
    have hd' : σ' d = some .dir := by rw [h d (by simp), hd]
    obtain ⟨hw, hv⟩ := ih (fun q hq => h q (List.mem_cons_of_mem _ hq))
    rw [walk_up hd, walk_up hd', visits_up hd', hw, hv]
    exact ⟨rfl, rfl⟩
  | missing n d x todo hd hx =>
    rw [visits_missing hd hx] at h ⊢
    have hd' : σ' d = some .dir := by rw [h d (by simp), hd]
    have hx' : σ' (d ++ [x]) = none := by rw [h _ (by simp), hx]
    rw [walk_missing hd hx, walk_missing hd' hx', visits_missing hd' hx']
    exact ⟨rfl, rfl⟩
  | loop d x todo tgt hd hx =>
    rw [visits_loop hd hx] at h ⊢
    have hd' : σ' d = some .dir := by rw [h d (by simp), hd]
    have hx' : σ' (d ++ [x]) = some (.symlink tgt) := by rw [h _ (by simp), hx]
    rw [walk_loop hd hx, walk_loop hd' hx', visits_loop hd' hx']
    exact ⟨rfl, rfl⟩
  | link n d x todo tgt hd hx ih =>
    rw [visits_link hd hx] at h ⊢
    have hd' : σ' d = some .dir := by rw [h d (by simp), hd]
    have hx' : σ' (d ++ [x]) = some (.symlink tgt) := by rw [h _ (by simp), hx]
    obtain ⟨hw, hv⟩ := ih (fun q hq => h q (by simp [hq]))
    rw [walk_link hd hx, walk_link hd' hx', visits_link hd' hx', hw, hv]
    exact ⟨rfl, rfl⟩
  | entry n d x todo s hd hx hs ih =>
    rw [visits_entry hd hx hs] at h ⊢
    have hd' : σ' d = some .dir := by rw [h d (by simp), hd]
    have hx' : σ' (d ++ [x]) = some s := by rw [h _ (by simp), hx]
    obtain ⟨hw, hv⟩ := ih (fun q hq => h q (by simp [hq]))
    rw [walk_entry hd hx hs, walk_entry hd' hx' hs, visits_entry hd' hx' hs, hw, hv]
    exact ⟨rfl, rfl⟩

/-- The walk along a link begins at the root or where the link is. -/
theorem Target.from_above (tgt : Target) (d : Loc) : tgt.from d <+: d := by
  unfold Target.from
  split
  · exact List.nil_prefix
  · exact List.prefix_refl d

/-- Every directory on the way to `q` is among `seen` or lies on the way to `d`. -/
def Covers (seen : List Loc) (d q : Loc) : Prop := ∀ p, p <+: q → p ∈ seen ∨ p <+: d

/-- A place is covered from itself. -/
theorem Covers.start (seen : List Loc) (d : Loc) : Covers seen d d := fun _ hp => .inr hp

/-- What is covered stays covered with more that was seen and from further below. -/
theorem Covers.mono {seen seen' : List Loc} {d d' q : Loc} (h : Covers seen d q)
    (hsub : seen ⊆ seen') (hup : d <+: d') : Covers seen' d' q := fun p hp =>
  (h p hp).imp (fun hin => hsub hin) (fun hpre => hpre.trans hup)

/-- Going down to an entry that is looked at. -/
theorem Covers.down {seen seen' : List Loc} {d q : Loc} {x : Name} (h : Covers seen (d ++ [x]) q)
    (hsub : seen ⊆ seen') (hx : d ++ [x] ∈ seen') : Covers seen' d q := by
  intro p hp
  rcases h p hp with hin | hpre
  · exact .inl (hsub hin)
  · rcases List.prefix_concat_iff.mp hpre with rfl | hpre
    · exact .inl hx
    · exact .inr hpre

/-- A place that was seen is covered from above. -/
theorem Covers.child {seen : List Loc} {d : Loc} {x : Name} (hx : d ++ [x] ∈ seen) :
    Covers seen d (d ++ [x]) :=
  (Covers.start seen (d ++ [x])).down (List.Subset.refl seen) hx

/-- A walk looks at every location on the way down to what it looks at or ends at, save
    those above its start. -/
theorem visits_above (n : Nat) (d : Loc) (todo : List Comp) :
    (∀ q ∈ visits σ n d todo, Covers (visits σ n d todo) d q) ∧
      ∀ r, walk σ n d todo = .ok r → Covers (visits σ n d todo) d r.1 := by
  induction n, d, todo using walk_induct σ with
  | nil n d =>
    rw [visits_nil, walk_nil]
    refine ⟨fun q hq => absurd hq List.not_mem_nil, ?_⟩
    rintro r ⟨⟩
    exact .start _ d
  | gone n d c todo hd =>
    rw [visits_gone hd, walk_gone hd]
    refine ⟨?_, by rintro r ⟨⟩⟩
    intro q hq
    rw [List.mem_singleton.mp hq]
    exact .start _ d
  | leaf n d c todo s hd hs =>
    rw [visits_leaf hd hs, walk_leaf hd hs]
    refine ⟨?_, by rintro r ⟨⟩⟩
    intro q hq
    rw [List.mem_singleton.mp hq]
    exact .start _ d
  | cur n d todo hd ih =>
    rw [visits_cur hd, walk_cur hd]
    have hsub := List.subset_cons_self d (visits σ n d todo)
    refine ⟨?_, fun r hr => (ih.2 r hr).mono hsub (List.prefix_refl d)⟩
    intro q hq
    rcases List.mem_cons.mp hq with rfl | hq
    · exact .start _ q
    · exact (ih.1 q hq).mono hsub (List.prefix_refl d)
  | up n d todo hd ih =>
    rw [visits_up hd, walk_up hd]
    have hsub := List.subset_cons_self d (visits σ n d.dropLast todo)
    have hparent : d.dropLast <+: d := List.dropLast_prefix d
    refine ⟨?_, fun r hr => (ih.2 r hr).mono hsub hparent⟩
    intro q hq
    rcases List.mem_cons.mp hq with rfl | hq
    · exact .start _ q
    · exact (ih.1 q hq).mono hsub hparent
  | missing n d x todo hd hx =>
    rw [visits_missing hd hx, walk_missing hd hx]
    refine ⟨?_, by rintro r ⟨⟩⟩
    intro q hq
    rcases List.mem_cons.mp hq with rfl | hq
    · exact .start _ q
    · rw [List.mem_singleton.mp hq]
      exact .child (by simp)
  | loop d x todo tgt hd hx =>
    rw [visits_loop hd hx, walk_loop hd hx]
    refine ⟨?_, by rintro r ⟨⟩⟩
    intro q hq
    rcases List.mem_cons.mp hq with rfl | hq
    · exact .start _ q
    · rw [List.mem_singleton.mp hq]
      exact .child (by simp)
  | link n d x todo tgt hd hx ih =>
    rw [visits_link hd hx, walk_link hd hx]
    -- the walk goes on from `d` or from the root directory, both on the way to `d`
    have hfrom := tgt.from_above d
    have hsub : visits σ n (tgt.from d) (tgt.comps ++ todo)
        ⊆ d :: (d ++ [x]) :: visits σ n (tgt.from d) (tgt.comps ++ todo) := by simp
    refine ⟨?_, fun r hr => (ih.2 r hr).mono hsub hfrom⟩
    intro q hq
    rcases List.mem_cons.mp hq with rfl | hq
    · exact .start _ q
    rcases List.mem_cons.mp hq with rfl | hq
    · exact .child (by simp)
    · exact (ih.1 q hq).mono hsub hfrom
  | entry n d x todo s hd hx hs ih =>
    rw [visits_entry hd hx hs, walk_entry hd hx hs]
    have hsub : visits σ n (d ++ [x]) todo ⊆ d :: (d ++ [x]) :: visits σ n (d ++ [x]) todo := by
      simp
    refine ⟨?_, fun r hr => (ih.2 r hr).down hsub (by simp)⟩
    intro q hq
    rcases List.mem_cons.mp hq with rfl | hq
    · exact .start _ q
    rcases List.mem_cons.mp hq with rfl | hq
    · exact .child (by simp)
    · exact (ih.1 q hq).down hsub (by simp)

/-- A walk that succeeds looks only at what exists. -/
theorem visits_exist (n : Nat) (d : Loc) (todo : List Comp) (r : Loc × Nat)
    (h : walk σ n d todo = .ok r) : ∀ q ∈ visits σ n d todo, σ q ≠ none := by
  induction n, d, todo using walk_induct σ with
  | nil n d => simp [visits_nil]
  | gone n d c todo hd => rw [walk_gone hd] at h; cases h
  | leaf n d c todo s hd hs => rw [walk_leaf hd hs] at h; cases h
  | cur n d todo hd ih =>
    rw [walk_cur hd] at h
    rw [visits_cur hd]
    exact List.forall_mem_cons.mpr ⟨by simp [hd], ih h⟩
  | up n d todo hd ih =>
    rw [walk_up hd] at h
    rw [visits_up hd]
    exact List.forall_mem_cons.mpr ⟨by simp [hd], ih h⟩
  | missing n d x todo hd hx => rw [walk_missing hd hx] at h; cases h
  | loop d x todo tgt hd hx => rw [walk_loop hd hx] at h; cases h
  | link n d x todo tgt hd hx ih =>
    rw [walk_link hd hx] at h
    rw [visits_link hd hx]
    exact List.forall_mem_cons.mpr ⟨by simp [hd], List.forall_mem_cons.mpr ⟨by simp [hx], ih h⟩⟩
  | entry n d x todo s hd hx hs ih =>
    rw [walk_entry hd hx hs] at h
    rw [visits_entry hd hx hs]
    exact List.forall_mem_cons.mpr ⟨by simp [hd], List.forall_mem_cons.mpr ⟨by simp [hx], ih h⟩⟩

/-- A walk of names that meets no link looks only at the locations on the way down. -/
theorem visits_names (n : Nat) (d r : Loc) (trailing : Bool)
    (hlink : ∀ p, p <+: d ++ r → ∀ tgt, σ p ≠ some (.symlink tgt)) :
    ∀ q ∈ visits σ n d (r.map .name ++ if trailing then [.cur] else []), q <+: d ++ r := by
  induction r generalizing d with
  | nil =>
    rw [List.map_nil, List.nil_append, List.append_nil]
    cases trailing with
    | false => simp [visits_nil]
    | true =>
      cases hs : σ d with
      | none => simp [visits_gone hs]
      | some s =>
        by_cases hdir : s = .dir
        · subst hdir
          simp [visits_cur hs, visits_nil]
        · simp [visits_leaf hs hdir]
  | cons x r ih =>
    have hd : d <+: d ++ x :: r := List.prefix_append d _
    have hx : d ++ [x] <+: d ++ x :: r := ⟨r, by simp⟩
    rw [List.map_cons, List.cons_append]
    cases hs : σ d with
    | none => simp [visits_gone hs]
    | some s =>
      by_cases hdir : s = .dir
      · subst hdir
        cases hsx : σ (d ++ [x]) with
        | none => simp [visits_missing hs hsx]
        | some s =>
          have hne : ∀ tgt, s ≠ .symlink tgt := by
            rintro tgt rfl
            exact hlink _ hx tgt hsx
          have hsplit : d ++ x :: r = d ++ [x] ++ r := by simp
          rw [visits_entry hs hsx hne]
          refine List.forall_mem_cons.mpr ⟨hd, List.forall_mem_cons.mpr ⟨hx, ?_⟩⟩
          rw [hsplit] at hlink ⊢
          exact ih (d ++ [x]) hlink
      · simp [visits_leaf hs hdir]

end Posix
