import Netfilum.Lib.FileService

namespace FileTree

/-!
# A drive

A file service whose files are used through handles, as an operating system does for the
programs that run on it.  A handle is no more than a path: it follows the renames that come
through it, and no others.

* `Handle`, `Drive` — the tree, and the handles, numbered in the order in which they are opened.
* `Action`, `Op` — what can be done through a handle, and what can be done to the drive.
* `Handle.command` — what an action asks of the file service;  `Handle.next` — what becomes of
  the handle when it is answered.
* `Drive.act` — the answer to an operation, if it has one, and the drive it leaves;
  `Drive.trace`, `Drive.after` — the same for operations that come one after another.
-/

variable {ν α : Type*}

/-- A handle: the path it was opened at, or was renamed to, the kind of what stood there, and
    whether it is to be removed when the handle is cleaned up. -/
structure Handle (ν : Type*) where
  path    : List ν
  kind    : Kind
  pending : Bool

/-- The tree and the handles. -/
structure Drive (ν α : Type*) where
  tree   : FileTree ν α
  handle : Nat → Option (Handle ν)
  next   : Nat

/-- What can be done through a handle. -/
inductive Action (ν α : Type*) where
  | look
  | list
  | read (offset length : Nat)
  /-- Write at an offset, or at the end. -/
  | write (offset : Option Nat) (data : List α)
  /-- Write no further than the file goes. -/
  | overwrite (offset : Nat) (toEof : Bool) (data : List α)
  | resize (size : Nat)
  | adjust
  | rename (dst : List ν) (replace : Bool)
  | setPending (pending : Bool)
  /-- The handle is cleaned up, and what it stands for removed if it is to be. -/
  | cleanup (delete : Bool)
  | close

/-- What can be done to a drive. -/
inductive Op (ν α : Type*) where
  | ask (c : Command ν α)
  | «open» (p : List ν)
  | create (p : List ν) (kind : Kind)
  | through (i : Nat) (action : Action ν α)

/-- Whether the action may be refused for reasons of its own. -/
def Action.Fallible : Action ν α → Prop
  | .adjust => True
  | _       => False

@[inherit_doc Action.Fallible]
def Op.Fallible : Op ν α → Prop
  | .ask c            => c.Fallible
  | .through _ action => action.Fallible
  | _                 => False

/-- The kind of a node. -/
def Node.kind : Node α → Kind
  | .file _ => .file
  | .dir    => .dir

/-- A blank node is of the kind that was asked for. -/
theorem Kind.kind_blank (kind : Kind) : (kind.blank : Node α).kind = kind := by
  cases kind <;> rfl

namespace Handle

/-- What the action asks of the file service, if anything. -/
def command (x : Handle ν) (T : FileTree ν α) : Action ν α → Option (Command ν α)
  | .look               => some (.look x.path)
  | .list               => some (.list x.path)
  | .read offset length => some (.read x.path offset length)
  | .write offset data  => some (.write x.path offset data)
  | .overwrite offset toEof data =>
    let length := ((T.contents x.path).getD []).length
    -- behind the end nothing is written
    if T.contents x.path ≠ none ∧ length ≤ offset then some (.look x.path)
    else some (.write x.path (if toEof then none else some offset) (data.take (length - offset)))
  | .resize size        => some (.resize x.path size)
  | .adjust             => some (.adjust x.path)
  | .rename dst replace => some (.rename x.path dst replace)
  | .setPending pending => if pending then some (.mayRemove x.path x.kind) else none
  | .cleanup delete     => if x.pending ∨ delete then some (.remove x.path x.kind) else none
  | .close              => none

/-- The handle, once the action is answered. -/
def next (x : Handle ν) : Action ν α → Option (Handle ν)
  | .rename dst _       => some { x with path := dst }
  | .setPending pending => some { x with pending }
  | .close              => none
  | _                   => some x

section

variable {x : Handle ν} {T : FileTree ν α} {offset : Nat} {toEof : Bool} {data old : List α}

/-- Overwriting behind the end writes nothing: the attributes are asked for. -/
theorem overwrite_behind (h : T.contents x.path = some old) (hle : old.length ≤ offset) :
    x.command T (.overwrite offset toEof data) = some (.look x.path) := by
  unfold command
  rw [h]
  exact if_pos ⟨nofun, hle⟩

/-- Overwriting inside the file is cut off at its end. -/
theorem overwrite_inside (h : T.contents x.path = some old) (hlt : offset < old.length) :
    x.command T (.overwrite offset toEof data)
      = some (.write x.path (if toEof then none else some offset)
          (data.take (old.length - offset))) := by
  unfold command
  rw [h]
  exact if_neg fun hc => Nat.not_le.mpr hlt hc.2

/-- Overwriting what is no file writes nothing to it. -/
theorem overwrite_none (h : T.contents x.path = none) :
    x.command T (.overwrite offset toEof data)
      = some (.write x.path (if toEof then none else some offset) (data.take (0 - offset))) := by
  unfold command
  rw [h]
  exact if_neg fun hc => hc.1 rfl

end

end Handle

/-- A handle is cleaned up whether or not anything could be removed. -/
def Action.answer (answer : Option (Answer ν α)) : Action ν α → Option (Answer ν α)
  | .cleanup _ => some .done
  | _          => answer

section

variable [Fill α] {T : FileTree ν α} {limit size : Nat} {p : List ν} {a : Answer ν α}

/-- A change of the size is answered with the file. -/
theorem node_of_resize (h : (T.run limit (.resize p size)).1 = some a) : ∃ n, a = .node n := by
  simp only [run] at h
  split at h
  · cases h
  · split at h
    · cases h
      exact ⟨_, rfl⟩
    · cases h

/-- A write is answered with the number of bytes, and the file. -/
theorem written_of_write {offset : Option Nat} {data : List α}
    (h : (T.run limit (.write p offset data)).1 = some a) : ∃ n, a = .written data.length n := by
  simp only [run] at h
  split at h
  · cases h
  · split at h
    · cases h
      exact ⟨_, rfl⟩
    · cases h

/-- What is no file cannot be written. -/
theorem run_write_none {offset : Option Nat} {data : List α} (h : T.contents p = none) :
    T.run limit (.write p offset data) = (none, T) := by
  simp only [run, h]

end

namespace Drive

/-- No handle has been opened yet. -/
def fresh (T : FileTree ν α) : Drive ν α where
  tree     := T
  handle _ := none
  next     := 0

/-- A handle is opened, with the next number. -/
def opened (d : Drive ν α) (T : FileTree ν α) (x : Handle ν) : Drive ν α where
  tree   := T
  handle := Function.update d.handle d.next (some x)
  next   := d.next + 1

/-- An action through a handle, with what the file service answers and leaves. -/
def acts (d : Drive ν α) (i : Nat) (x : Handle ν) (action : Action ν α)
    (r : Option (Answer ν α) × FileTree ν α) : Option (Answer ν α) × Drive ν α :=
  (action.answer r.1,
    { d with
      tree := r.2
      handle := if (action.answer r.1).isSome then Function.update d.handle i (x.next action)
        else d.handle })

variable [Fill α]

/-- The answer to an operation, if it has one, and the drive it leaves.  Nothing is done through
    a handle that is not open. -/
noncomputable def act (limit : Nat) (d : Drive ν α) : Op ν α → Option (Answer ν α) × Drive ν α
  | .ask c => ((d.tree.run limit c).1, { d with tree := (d.tree.run limit c).2 })
  | .open p =>
    match d.tree.node p with
    | none   => (none, d)
    | some n => (some (.node n), d.opened d.tree ⟨p, n.kind, false⟩)
  | .create p kind =>
    match d.tree.run limit (.make p kind) with
    | (none, T)        => (none, { d with tree := T })
    | (some answer, T) => (some answer, d.opened T ⟨p, kind, false⟩)
  | .through i action =>
    match d.handle i with
    | none   => (none, d)
    | some x =>
      match x.command d.tree action with
      | none   => d.acts i x action (some .done, d.tree)
      | some c => d.acts i x action (d.tree.run limit c)

variable {limit : Nat} {d : Drive ν α} {i : Nat} {x : Handle ν} {action : Action ν α}
  {c : Command ν α} {r : Option (Answer ν α) × FileTree ν α}

/-- A new node is made where nothing is, and a handle opened on it. -/
theorem act_create (d : Drive ν α) (limit : Nat) (p : List ν) (kind : Kind) :
    d.tree.run limit (.make p kind) = (none, d.tree) ∧
        d.act limit (.create p kind) = (none, d) ∨
      ∃ T, d.tree.run limit (.make p kind) = (some (.node kind.blank), T) ∧
        d.act limit (.create p kind)
          = (some (.node kind.blank), d.opened T ⟨p, kind, false⟩) := by
  by_cases hfree : d.tree.node p = none ∧ d.tree.node p.dropLast = some .dir
  · have hrun : d.tree.run limit (.make p kind)
        = (some (.node kind.blank), d.tree.put p kind.blank) := if_pos hfree
    exact .inr ⟨_, hrun, by simp only [act, hrun]⟩
  · have hrun : d.tree.run limit (.make p kind) = (none, d.tree) := if_neg hfree
    exact .inl ⟨hrun, by simp only [act, hrun]⟩

/-! ### An action through an open handle -/

/-- An action that sends a command is answered with what the command answers. -/
theorem act_through (hx : d.handle i = some x) (hc : x.command d.tree action = some c) :
    d.act limit (.through i action) = d.acts i x action (d.tree.run limit c) := by
  simp only [act, hx, hc]

/-- An action that sends none leaves the tree as it is. -/
theorem act_alone (hx : d.handle i = some x) (hc : x.command d.tree action = none) :
    d.act limit (.through i action) = d.acts i x action (some .done, d.tree) := by
  simp only [act, hx, hc]

omit [Fill α] in
/-- An action that leaves the handle as it is. -/
theorem acts_keep (hx : d.handle i = some x) (hnext : x.next action = some x) :
    d.acts i x action r = (action.answer r.1, { d with tree := r.2 }) := by
  have hsame : Function.update d.handle i (some x) = d.handle := by
    rw [← hx]
    exact Function.update_eq_self i d.handle
  simp only [acts, hnext, hsame, ite_self]

/-- What is asked through a handle that stays as it is. -/
theorem act_keep (limit : Nat) (action : Action ν α) (c : Command ν α) (hx : d.handle i = some x)
    (hc : x.command d.tree action = some c) (hnext : x.next action = some x) :
    d.act limit (.through i action)
      = (action.answer (d.tree.run limit c).1, { d with tree := (d.tree.run limit c).2 }) := by
  rw [act_through hx hc, acts_keep hx hnext]

/-! ### Runs -/

section Calls

variable {κ : Type*} (op : κ → Nat × Op ν α)

/-- Calls for operations, each with the size limit of its time, and what they are answered. -/
noncomputable def trace (d : Drive ν α) : List κ → List (κ × Option (Answer ν α))
  | []           => []
  | call :: rest =>
    (call, (d.act (op call).1 (op call).2).1) :: (d.act (op call).1 (op call).2).2.trace rest

/-- The drive that they leave. -/
noncomputable def after (d : Drive ν α) (calls : List κ) : Drive ν α :=
  calls.foldl (fun d call => (d.act (op call).1 (op call).2).2) d

end Calls

end Drive

end FileTree
