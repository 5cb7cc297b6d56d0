import Netfilum.Server.Contents
import Netfilum.Server.Listing
import Netfilum.Server.Plain

namespace Netfilum

open Posix Program Rust

/-!
# What a request is for

The command to a file service that each request stands for, and what it means that a response
conveys the answer.

* `Request.command` — the command.  A path that is refused, or that cannot be passed to the
  system, makes it `invalid`.
* `Depicts`, `Conveys` — attributes depict a node, a response conveys an answer.
* `RpcServer.Does` — the outcome of a request is what its command says, also for the tree.
-/

/-- A gap in a file reads as zeros. -/
instance : FileTree.Fill UInt8 := ⟨0⟩

/-- The names a request path stands for, if it can be passed to the system. -/
def namesOf (path : String) : Option (List Name) :=
  match normalizeRelativePath path with
  | .error _ => none
  | .ok rel  => if ∀ n ∈ rel, n.contains 0 = false then some rel else none

/-- The command for the names of a path. -/
def onPath (path : String) (f : List Name → FileTree.Command Name UInt8) :
    FileTree.Command Name UInt8 := ((namesOf path).map f).getD .invalid

/-- The kind of node for a kind of entry. -/
def EntryKind.kind : EntryKind → FileTree.Kind
  | .file      => .file
  | .directory => .dir

/-- Where a write goes, to an offset, or to the end. -/
def offsetOf (offset : UInt64) (toEof : Bool) : Option Nat :=
  if toEof then none else some offset.toNat

/-- What a request is for. -/
def Request.command : Request → FileTree.Command Name UInt8
  | .stat path | .open path => onPath path .look
  | .create path kind _ _ => onPath path fun p => .make p kind.kind
  | .readDir path => onPath path .list
  | .read path offset length => onPath path fun p => .read p offset.toNat length.toNat
  | .write path offset data toEof => onPath path fun p =>
    .write p (offsetOf offset toEof) data
  | .canDelete path kind => onPath path fun p => .mayRemove p kind.kind
  | .removeFile path => onPath path fun p => .remove p .file
  | .removeDir path => onPath path fun p => .remove p .dir
  | .rename path newPath replace => onPath path fun src => onPath newPath fun dst =>
    .rename src dst replace
  -- a change of the allocation size only asks for the attributes
  | .setLen path size allocation => onPath path fun p =>
    if allocation then .look p else .resize p size.toNat
  -- the root is always there
  | .flush none => .check []
  | .flush (some path) => onPath path .check
  | .setBasicInfo path _ => onPath path .adjust
  | .getVolumeInfo => .report

/-- The attributes are those of such a node. -/
def Depicts (attr : FileAttr) : FileTree.Node UInt8 → Prop
  | .file data => attr.kind = .file ∧ attr.size = UInt64.ofNat data.length
  | .dir       => attr.kind = .directory

/-- The listing has one entry for every name, in the order of their texts. -/
structure Enumerates (entries : List DirEntry) (nodes : Name → Option (FileTree.Node UInt8)) :
    Prop where
  sorted : entries.Pairwise fun e e' => e.name ≤ e'.name
  made   : ∃ made : List (Name × DirEntry), made.map Prod.snd = entries ∧
    (made.map Prod.fst).Nodup ∧ (∀ n, n ∈ made.map Prod.fst ↔ nodes n ≠ none) ∧
    ∀ i ∈ made, i.2.name = Utf8.lossy i.1 ∧
      ∃ node, nodes i.1 = some node ∧ Depicts i.2.attr node

/-- The result of a request conveys the answer to a command, or that there is none. -/
inductive Conveys : RpcResult Response → Option (FileTree.Answer Name UInt8) → Prop where
  | refused (e : RpcError) : Conveys (.error e) none
  | node {attr n} (h : Depicts attr n) : Conveys (.ok (.attr attr)) (some (.node n))
  | children {entries nodes} (h : Enumerates entries nodes) :
      Conveys (.ok (.dirEntries entries)) (some (.children nodes))
  | bytes (data) : Conveys (.ok (.data data)) (some (.bytes data))
  | written {attr n} (count : Nat) (h : Depicts attr n) :
      Conveys (.ok (.writeResult (UInt32.ofNat count) attr)) (some (.written count n))
  | done : Conveys (.ok .empty) (some .done)
  | volume (info) : Conveys (.ok (.volumeInfo info)) (some .done)

/-- It conveys what the command is answered; a fallible command may be refused all the same. -/
def Tells (c : FileTree.Command Name UInt8) (result : RpcResult Response)
    (answer : Option (FileTree.Answer Name UInt8)) : Prop :=
  Conveys result answer ∨ c.Fallible ∧ ∃ e, result = .error e

namespace RpcServer

variable {srv : RpcServer} {os : Os} {t t' : Tree} {relative : String} {path : PathBuf}
  {q d v : Loc} {x : Name} {rel : List Name}

/-- A result tells, and leaves behind, what the command says. -/
structure Does (h : srv.Plain t) (limit : Nat) (c : FileTree.Command Name UInt8)
    (result : EStateM.Result RpcError Tree Response) : Prop where
  tells : Tells c (outcome result) (h.view.run limit c).1
  tree  : ∃ h' : srv.Plain (final result), h'.view = (h.view.run limit c).2

/-- The request renames an entry, to be replaced, onto itself, onto one that it lies in, or onto
    one that lies in it. -/
def Nested (T : FileTree Name UInt8) : FileTree.Command Name UInt8 → Prop
  | .rename src dst replace => replace = true ∧ dst ≠ [] ∧ T.node src ≠ none ∧ T.node dst ≠ none ∧
      (src <+: dst ∨ dst <+: src)
  | _                       => False

/-! ### Paths -/

/-- The names of a path, which the system takes as they are. -/
theorem namesOf_eq_some : namesOf relative = some rel ↔
    normalizeRelativePath relative = .ok rel ∧ ∀ n ∈ rel, n.contains 0 = false := by
  unfold namesOf
  cases normalizeRelativePath relative with
  | error e => simp
  | ok rel' =>
    simp only [Option.ite_none_right_eq_some, Option.some.injEq, Except.ok.injEq]
    constructor
    · rintro ⟨hnul, rfl⟩
      exact ⟨rfl, hnul⟩
    · rintro ⟨rfl, hnul⟩
      exact ⟨hnul, rfl⟩

/-- The command for a path with these names. -/
theorem onPath_of_some {f : List Name → FileTree.Command Name UInt8}
    (h : namesOf relative = some rel) : onPath relative f = f rel := by
  rw [onPath, h]
  rfl

/-- A path without names makes an invalid command. -/
theorem onPath_of_none {f : List Name → FileTree.Command Name UInt8}
    (h : namesOf relative = none) : onPath relative f = .invalid := by
  rw [onPath, h]
  rfl

/-- An existing path is one that the abstract tree has a node at. -/
theorem Plain.existing_names (h : srv.Plain t) : srv.Existing t relative path q ↔
    ∃ rel, namesOf relative = some rel ∧ path = srv.root.join rel ∧ q = srv.rootReal ++ rel ∧
      h.view.node rel ≠ none := by
  rw [h.existing_iff]
  refine exists_congr fun rel => ?_
  rw [namesOf_eq_some, ne_eq, ne_eq, h.node_eq_none_iff]
  constructor
  · rintro ⟨hrel, rfl, rfl, hex⟩
    exact ⟨⟨hrel, h.noNul rel hex⟩, rfl, rfl, hex⟩
  · rintro ⟨⟨hrel, -⟩, rfl, rfl, hex⟩
    exact ⟨hrel, rfl, rfl, hex⟩

/-- What the file service has is found by the server. -/
theorem Plain.existing_of_node (h : srv.Plain t) (hrel : namesOf relative = some rel)
    (hex : h.view.node rel ≠ none) :
    srv.Existing t relative (srv.root.join rel) (srv.rootReal ++ rel) :=
  h.existing_names.mpr ⟨rel, hrel, rfl, rfl, hex⟩

/-- The attributes of an entry depict the node that it stands for. -/
theorem depicts_attrOf {e : Entry} {n : FileTree.Node UInt8} (hn : nodeOf e.body = some n) :
    Depicts (attrOf e) n := by
  cases hbody : e.body with
  | file data =>
    rw [hbody] at hn
    cases hn
    refine ⟨?_, lenOf_file hbody⟩
    unfold attrOf Entry.shape
    rw [hbody]
    rfl
  | dir size =>
    rw [hbody] at hn
    cases hn
    show (attrOf e).kind = _
    unfold attrOf Entry.shape
    rw [hbody]
    rfl
  | symlink target =>
    rw [hbody] at hn
    cases hn

/-- The entry that stands for a node. -/
theorem Plain.entry_of_node (h : srv.Plain t) {n : FileTree.Node UInt8}
    (hn : h.view.node rel = some n) :
    ∃ e, t.look (srv.rootReal ++ rel) = some e ∧ nodeOf e.body = some n ∧
      Depicts (attrOf e) n := by
  rw [h.view_node, Option.bind_eq_some_iff] at hn
  obtain ⟨b, hb, hn⟩ := hn
  obtain ⟨e, he, rfl⟩ := Option.map_eq_some_iff.mp hb
  exact ⟨e, he, hn, depicts_attrOf hn⟩

/-! ### Carrying out a command -/

section Carrying

variable (h : srv.Plain t) {limit : Nat} {c : FileTree.Command Name UInt8} {x : ServerM Response}
  {response : Response} {e : RpcError} {answer : Option (FileTree.Answer Name UInt8)}
  {T' : FileTree Name UInt8}

include h

/-- The request is answered as the command is, and leaves its tree. -/
theorem does_ok (hok : x t = .ok response t') (hrun : h.view.run limit c = (answer, T'))
    (hc : Conveys (.ok response) answer) (htree : ∃ h' : srv.Plain t', h'.view = T') :
    Does h limit c (x t) := by
  rw [hok]
  refine ⟨.inl ?_, ?_⟩
  · rw [hrun]
    exact hc
  · rw [hrun]
    exact htree

/-- The request is refused, which the command is or may be, and leaves its tree. -/
theorem does_error (herr : x t = .error e t') (hrun : h.view.run limit c = (answer, T'))
    (hc : answer = none ∨ c.Fallible) (htree : ∃ h' : srv.Plain t', h'.view = T') :
    Does h limit c (x t) := by
  rw [herr]
  refine ⟨?_, ?_⟩
  · rw [hrun]
    rcases hc with rfl | hc
    · exact .inl (.refused e)
    · exact .inr ⟨hc, e, rfl⟩
  · rw [hrun]
    exact htree

/-- The request is answered and changes nothing, and so is the command. -/
theorem does_answered (hok : x t = .ok response t) (hrun : h.view.run limit c = (answer, h.view))
    (hc : Conveys (.ok response) answer) : Does h limit c (x t) :=
  does_ok h hok hrun hc ⟨h, rfl⟩

/-- The request is refused and changes nothing, and so is the command. -/
theorem does_refused (herr : x t = .error e t) (hrun : h.view.run limit c = (none, h.view)) :
    Does h limit c (x t) :=
  does_error h herr hrun (.inl rfl) ⟨h, rfl⟩

/-- A request that changes nothing and is not answered is refused. -/
theorem does_unanswered (hsame : final (x t) = t) (hrun : h.view.run limit c = (none, h.view))
    (hno : ∀ response s, x t ≠ .ok response s) : Does h limit c (x t) := by
  cases hx : x t with
  | ok response s => exact absurd hx (hno response s)
  | error e s =>
    rw [hx, final_error] at hsame
    subst hsame
    rw [← hx]
    exact does_refused h hx hrun

end Carrying

/-- A tree that has plain nodes only, after the request. -/
theorem Plain.of_shapes (h : srv.Plain t) (hexp : srv.Exported t')
    (hs : ∀ rel s, t'.shape (srv.rootReal ++ rel) = some s →
      (∀ target, s ≠ .symlink target) ∧ ∀ n ∈ rel, n.contains 0 = false) : srv.Plain t' where
  exported := hexp
  proper := h.proper
  noLinks rel target hshape := (hs rel _ hshape).1 target rfl
  noNul rel hex := by
    obtain ⟨s, hshape⟩ := Option.ne_none_iff_exists'.mp hex
    exact (hs rel s hshape).2

/-- What exists in a plain tree is no link, and has a path that can be passed on. -/
theorem Plain.shapes (h : srv.Plain t) {s : Shape}
    (hshape : t.shape (srv.rootReal ++ rel) = some s) :
    (∀ target, s ≠ .symlink target) ∧ ∀ n ∈ rel, n.contains 0 = false := by
  refine ⟨fun target hs => h.noLinks rel target (hs ▸ hshape), h.noNul rel ?_⟩
  rw [hshape]
  simp

end RpcServer

end Netfilum
