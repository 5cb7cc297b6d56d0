import Netfilum.Server.Changes
import Netfilum.Server.Moving

namespace Netfilum

open Posix Program Rust

/-!
# The server refines a file service

On a plain tree every request does what its command does to the tree of files and directories,
in every run that leaves the exported root in place.

* `does_dispatch` — any request does what its command does.
* `Careful` — a run in which every request leaves the exported root in place, and none renames
  an entry onto itself, onto one that it lies in, or onto one that lies in it.
* `replies_refine` — in such a run every reply is the answer of the file service.
* `requests_exchange`, `request_repeated`, `requests_isolated` — what follows for requests that
  do not meet, for one that comes twice, and for clients that keep to subtrees of their own.
-/

variable {srv : RpcServer} {os : Os} {t t' : Tree} {relative : String} {path : PathBuf}
  {rel : List Name}

namespace RpcServer

/-! ### Any request -/

/-- The request leaves the exported root in place, and does not replace an entry by itself, by
    one that lies in it, or by one that it lies in. -/
structure Covered (srv : RpcServer) (os : Os) (t : Tree) (request : Request) : Prop where
  rooted : ¬ srv.Uproots os t request
  apart  : ∀ h : srv.Plain t, ¬ Nested h.view request.command

/-- **One request** does what its command does. -/
theorem does_dispatch (h : srv.Plain t) {request : Request} (hc : srv.Covered os t request) :
    Does h os.maxBytes request.command (srv.dispatch os request t) := by
  have hexp := exported_step h.exported hc.rooted
  cases request with
  | stat path => exact does_stat h _
  | «open» path => exact does_stat h _
  | create path kind attributes allocation =>
    refine does_create h os kind ?_
    have hfinal := final_map (t := t) (srv.createEntry os path kind) Response.attr
    rw [← hfinal]
    exact hexp
  | readDir path => exact does_readDir h _
  | read path offset length => exact does_read h offset length
  | write path offset data toEof => exact does_write h os offset data toEof
  | canDelete path kind => exact does_canDelete h _ kind
  | removeFile path =>
    refine does_removeFile h os ?_
    rw [← final_then (srv.removeFile os path) Response.empty]
    exact hexp
  | removeDir path =>
    refine does_removeDir h os ?_
    rw [← final_then (srv.removeDir os path) Response.empty]
    exact hexp
  | rename path newPath replace => exact does_rename h os (hc.apart h) hc.rooted
  | setLen path size allocation => exact does_setLen h os size allocation
  | flush path =>
    cases path with
    | none => exact does_flushAll h _
    | some path => exact does_flush h _
  | setBasicInfo path update => exact does_setBasicInfo h os update
  | getVolumeInfo => exact does_getVolumeInfo h _

/-! ### Runs -/

/-- Requests that come one after another, with the replies to them. -/
def replies (srv : RpcServer) :
    Tree → List (Os × Request) → List ((Os × Request) × RpcResult Response)
  | _, []           => []
  | t, call :: rest =>
    (call, outcome (srv.dispatch call.1 call.2 t)) ::
      srv.replies (final (srv.dispatch call.1 call.2 t)) rest

/-- The tree that they leave. -/
def left (srv : RpcServer) (t : Tree) (calls : List (Os × Request)) : Tree :=
  calls.foldl (fun t call => final (srv.dispatch call.1 call.2 t)) t

/-- Every request of the run is covered where it comes. -/
def Careful (srv : RpcServer) : Tree → List (Os × Request) → Prop
  | _, []           => True
  | t, call :: rest =>
    srv.Covered call.1 t call.2 ∧ srv.Careful (final (srv.dispatch call.1 call.2 t)) rest

/-- The command that a request stands for, with the size limit of its time. -/
def asCommand (call : Os × Request) : Nat × FileTree.Command Name UInt8 :=
  (call.1.maxBytes, call.2.command)

/-- The reply to a request tells what its command was answered. -/
def Replied (reply : (Os × Request) × RpcResult Response)
    (answer : (Os × Request) × Option (FileTree.Answer Name UInt8)) : Prop :=
  reply.1 = answer.1 ∧ Tells reply.1.2.command reply.2 answer.2

/-- In every run of covered requests on a plain tree the replies are those of the file
    service, and the tree stays the one it has. -/
theorem Plain.replied {calls : List (Os × Request)} (h : srv.Plain t) (hc : srv.Careful t calls) :
    List.Forall₂ Replied (srv.replies t calls) (h.view.trace asCommand calls) ∧
      ∃ h' : srv.Plain (srv.left t calls), h'.view = h.view.after asCommand calls := by
  induction calls generalizing t with
  | nil => exact ⟨.nil, h, rfl⟩
  | cons call calls ih =>
    obtain ⟨hfirst, hrest⟩ := hc
    have hdoes := does_dispatch h hfirst
    obtain ⟨h₁, hview⟩ := hdoes.tree
    obtain ⟨htold, h', hafter⟩ := ih h₁ hrest
    rw [hview] at htold hafter
    exact ⟨.cons ⟨rfl, hdoes.tells⟩ htold, h', hafter⟩

/-- What the requests have to keep to, on the side of the file service: nobody asks for the
    removal of the root while it is empty, or for an entry to be replaced by itself, by one that
    lies in it, or by one that it lies in. -/
def Tame : FileTree Name UInt8 → List (Os × Request) → Prop
  | _, []           => True
  | T, call :: rest =>
    (call.2.command = .remove [] .dir → ¬ T.Empty []) ∧ ¬ Nested T call.2.command ∧
      Tame (T.run call.1.maxBytes call.2.command).2 rest

/-- Without links in the path of the root such requests are covered. -/
theorem careful_of_tame (h : srv.Plain t) (hroot : srv.root.names = srv.rootReal)
    {calls : List (Os × Request)} (htame : Tame h.view calls) : srv.Careful t calls := by
  induction calls generalizing t with
  | nil => trivial
  | cons call calls ih =>
    obtain ⟨hempty, hnested, hrest⟩ := htame
    have hcovered : srv.Covered call.1 t call.2 := by
      refine ⟨fun hup => ?_, fun _ => hnested⟩
      obtain ⟨path, hrequest, hnorm, hnil⟩ := (uproots_iff h.exported h.proper hroot).mp hup
      have hrel : namesOf path = some [] := namesOf_eq_some.mpr ⟨hnorm, by simp⟩
      refine hempty ?_ (h.empty_iff.mpr ?_)
      · rw [hrequest, Request.command, onPath_of_some hrel]
      · rw [List.append_nil, hnil]
    obtain ⟨h₁, hview⟩ := (does_dispatch h hcovered).tree
    exact ⟨hcovered, ih h₁ (hview ▸ hrest)⟩

/-- Neither removes a directory nor replaces anything. -/
def Mild : Request → Prop
  | .removeDir _ | .rename _ _ true => False
  | _                               => True

/-- What holds of `invalid` and of the command for any names holds of the one for a path. -/
theorem onPath_induct (P : FileTree.Command Name UInt8 → Prop) (path : String)
    {f : List Name → FileTree.Command Name UInt8} (hinvalid : P .invalid) (hf : ∀ rel, P (f rel)) :
    P (onPath path f) := by
  cases hrel : namesOf path with
  | none => rwa [onPath_of_none hrel]
  | some rel =>
    rw [onPath_of_some hrel]
    exact hf rel

/-- The command removes no directory and is no nested rename. -/
def Harmless (T : FileTree Name UInt8) (c : FileTree.Command Name UInt8) : Prop :=
  c ≠ .remove [] .dir ∧ ¬ Nested T c

/-- A mild request removes no directory and nests no rename. -/
theorem Mild.harmless (T : FileTree Name UInt8) {request : Request} (h : Mild request) :
    Harmless T request.command := by
  have hpath : ∀ path (f : List Name → FileTree.Command Name UInt8),
      (∀ rel, Harmless T (f rel)) → Harmless T (onPath path f) := fun path f hf =>
    onPath_induct (Harmless T) path ⟨by simp, id⟩ hf
  cases request with
  | stat path | «open» path | create path | readDir path | read path | write path
  | canDelete path | removeFile path | setBasicInfo path =>
    exact hpath path _ fun rel => ⟨by simp, id⟩
  | removeDir path => exact h.elim
  | rename path newPath replace =>
    cases replace with
    | true => exact h.elim
    | false => exact hpath path _ fun src => hpath newPath _ fun dst =>
        ⟨by simp, fun hn => by cases hn.1⟩
  | setLen path size allocation =>
    refine hpath path _ fun rel => ?_
    cases allocation <;> exact ⟨by simp, id⟩
  | flush path =>
    cases path with
    | none => exact ⟨by simp [Request.command], id⟩
    | some path => exact hpath path _ fun rel => ⟨by simp, id⟩
  | getVolumeInfo => exact ⟨by simp [Request.command], id⟩

/-- A run of mild requests is tame, whatever the tree. -/
theorem tame_of_mild (T : FileTree Name UInt8) {calls : List (Os × Request)}
    (h : ∀ call ∈ calls, Mild call.2) : Tame T calls := by
  induction calls generalizing T with
  | nil => trivial
  | cons call calls ih =>
    obtain ⟨hne, hnested⟩ := (h call List.mem_cons_self).harmless T
    exact ⟨fun heq => absurd heq hne, hnested,
      ih _ fun call hmem => h call (List.mem_cons_of_mem _ hmem)⟩

/-- Without links in the path of the root, a run of mild requests is careful. -/
theorem careful_of_mild (h : srv.Plain t) (hroot : srv.root.names = srv.rootReal)
    {calls : List (Os × Request)} (hmild : ∀ call ∈ calls, Mild call.2) : srv.Careful t calls :=
  careful_of_tame h hroot (tame_of_mild _ hmild)

/-- **The server refines a file service.**  Where the exported directory holds only files and
    directories and no link leads to it, a run of requests is answered as the file service
    answers the commands they stand for, and leaves its tree, as long as nobody removes the
    root or replaces an entry by itself, by one that lies in it, or by one that it lies in. -/
theorem replies_refine (srv : RpcServer) (t : Tree) (calls : List (Os × Request))
    (h : srv.Plain t) (hroot : srv.root.names = srv.rootReal) (htame : Tame h.view calls) :
    List.Forall₂ Replied (srv.replies t calls) (h.view.trace asCommand calls) ∧
      ∃ h' : srv.Plain (srv.left t calls), h'.view = h.view.after asCommand calls :=
  h.replied (careful_of_tame h hroot htame)

/-- The tree with one file is plain. -/
theorem treeWithFile_plain : serverAtR.Plain treeWithFile :=
  .of_entries ⟨⟨by decide, by decide⟩, by decide⟩ (by decide) (by decide)

/-- A byte is written to the end of a file, which is then renamed. -/
def writeAndMove : List (Os × Request) :=
  [(.atTime ⟨1, 0⟩, .write "f" 0 [4] true), (.atTime ⟨2, 0⟩, .rename "f" "g" false)]

/-- The two requests are answered as by the service. -/
theorem replies_refine_writeAndMove :
    List.Forall₂ Replied (serverAtR.replies treeWithFile writeAndMove)
        (treeWithFile_plain.view.trace asCommand writeAndMove) ∧
      ∃ h' : serverAtR.Plain (serverAtR.left treeWithFile writeAndMove),
        h'.view = treeWithFile_plain.view.after asCommand writeAndMove :=
  replies_refine _ _ _ treeWithFile_plain rfl
    (tame_of_mild _ (by simp [writeAndMove, Mild]))

/-- What the command of a request is answered when it comes alone. -/
noncomputable def alone (T : FileTree Name UInt8) (call : Os × Request) :
    (Os × Request) × Option (FileTree.Answer Name UInt8) :=
  (call, (T.run call.1.maxBytes call.2.command).1)

/-- **Requests that do not meet** are answered as if the other had not come, in either order,
    and leave the same files and directories. -/
theorem requests_exchange (srv : RpcServer) (t : Tree) (call call' : Os × Request)
    (h : srv.Plain t) (hc : srv.Careful t [call, call']) (hc' : srv.Careful t [call', call])
    (hapart : call.2.command.Apart call'.2.command) :
    List.Forall₂ Replied (srv.replies t [call, call']) [alone h.view call, alone h.view call'] ∧
      List.Forall₂ Replied (srv.replies t [call', call])
        [alone h.view call', alone h.view call] ∧
      ∃ (h₁ : srv.Plain (srv.left t [call, call'])) (h₂ : srv.Plain (srv.left t [call', call])),
        h₁.view = h₂.view := by
  obtain ⟨hsecond, hsecond', htree⟩ := FileTree.run_comm h.view
    call.1.maxBytes call'.1.maxBytes hapart
  obtain ⟨hreplied, h₁, hview₁⟩ := h.replied hc
  obtain ⟨hreplied', h₂, hview₂⟩ := h.replied hc'
  have htrace : h.view.trace asCommand [call, call'] = [alone h.view call, alone h.view call'] := by
    simp only [FileTree.trace, asCommand, alone, hsecond]
  have htrace' : h.view.trace asCommand [call', call]
      = [alone h.view call', alone h.view call] := by
    simp only [FileTree.trace, asCommand, alone, hsecond']
  refine ⟨htrace ▸ hreplied, htrace' ▸ hreplied', h₁, h₂, ?_⟩
  rw [hview₁, hview₂]
  exact htree

/-- A file is written to, and another is created beside it. -/
def writeF : Os × Request := (.atTime ⟨1, 0⟩, .write "f" 0 [4] true)

@[inherit_doc writeF]
def createG : Os × Request := (.atTime ⟨2, 0⟩, .create "g" .file 0 0)

/-- The command of `writeF`. -/
theorem command_writeF : writeF.2.command = .write [Utf8.encode "f"] none [4] :=
  onPath_of_some (by decide)

/-- The command of `createG`. -/
theorem command_createG : createG.2.command = .make [Utf8.encode "g"] .file :=
  onPath_of_some (by decide)

/-- The two requests may come in either order. -/
theorem requests_exchange_writeF_createG :
    List.Forall₂ Replied (serverAtR.replies treeWithFile [writeF, createG])
        [alone treeWithFile_plain.view writeF, alone treeWithFile_plain.view createG] ∧
      List.Forall₂ Replied (serverAtR.replies treeWithFile [createG, writeF])
        [alone treeWithFile_plain.view createG, alone treeWithFile_plain.view writeF] ∧
      ∃ (h₁ : serverAtR.Plain (serverAtR.left treeWithFile [writeF, createG]))
        (h₂ : serverAtR.Plain (serverAtR.left treeWithFile [createG, writeF])),
        h₁.view = h₂.view := by
  refine requests_exchange _ _ _ _ treeWithFile_plain
    (careful_of_mild treeWithFile_plain rfl (by simp [writeF, createG, Mild]))
    (careful_of_mild treeWithFile_plain rfl (by simp [writeF, createG, Mild])) ?_
  rw [command_writeF, command_createG]
  have hne : [Utf8.encode "f"] ≠ [Utf8.encode "g"] := by decide
  constructor
  · rintro q rfl (heq | heq)
    · exact hne heq
    · cases heq
  · rintro q rfl heq
    exact hne heq.symm

/-- Only writes to the end of a file append. -/
theorem write_of_appends {request : Request} (h : request.command.Appends) :
    ∃ path offset data, request = .write path offset data true := by
  have hpath : ∀ path (f : List Name → FileTree.Command Name UInt8),
      (∀ rel, ¬ (f rel).Appends) → ¬ (onPath path f).Appends := fun path f hf =>
    onPath_induct (fun c => ¬ c.Appends) path id hf
  cases request with
  | write path offset data toEof =>
    cases toEof with
    | true => exact ⟨path, offset, data, rfl⟩
    | false => exact absurd h (hpath path _ fun _ => id)
  | rename path newPath replace =>
    exact absurd h (hpath path _ fun _ => hpath newPath _ fun _ => id)
  | setLen path size allocation =>
    refine absurd h (hpath path _ fun _ => ?_)
    cases allocation <;> exact id
  | flush path =>
    cases path with
    | none => exact h.elim
    | some path => exact absurd h (hpath path _ fun _ => id)
  | getVolumeInfo => exact h.elim
  | stat path | «open» path | create path | readDir path | read path | canDelete path
  | removeFile path | removeDir path | setBasicInfo path =>
    exact absurd h (hpath path _ fun _ => id)

/-- **A request that comes twice**, after a retry for one, leaves the files and directories that
    it leaves when it comes once, unless it writes to the end of a file. -/
theorem request_repeated (srv : RpcServer) (t : Tree) (os os' : Os) (request : Request)
    (h : srv.Plain t) (hc : srv.Careful t [(os, request), (os', request)])
    (hsize : os'.maxBytes = os.maxBytes)
    (happends : ∀ path offset data, request ≠ .write path offset data true) :
    ∃ (h₁ : srv.Plain (srv.left t [(os, request)]))
      (h₂ : srv.Plain (srv.left t [(os, request), (os', request)])), h₂.view = h₁.view := by
  have honce : srv.Careful t [(os, request)] := ⟨hc.1, trivial⟩
  obtain ⟨-, h₁, hview₁⟩ := h.replied honce
  obtain ⟨-, h₂, hview₂⟩ := h.replied hc
  refine ⟨h₁, h₂, ?_⟩
  rw [hview₁, hview₂]
  have hnot : ¬ request.command.Appends := fun hc => by
    obtain ⟨path, offset, data, heq⟩ := write_of_appends hc
    exact happends path offset data heq
  have htwice := FileTree.run_twice os.maxBytes h.view hnot
  simpa only [FileTree.after, asCommand, List.foldl, hsize] using htwice

/-- The file is created once. -/
theorem request_repeated_createG :
    ∃ (h₁ : serverAtR.Plain (serverAtR.left treeWithFile [createG]))
      (h₂ : serverAtR.Plain (serverAtR.left treeWithFile [createG, (.atTime ⟨7, 0⟩, createG.2)])),
      h₂.view = h₁.view :=
  request_repeated _ _ _ _ _ treeWithFile_plain
    (careful_of_mild treeWithFile_plain rfl (by simp [Mild])) rfl (by simp)

/-- **Clients that keep to themselves.**  The requests of a run that read only inside one
    directory are answered, among others that write only outside of it, as they are when they
    come alone, and leave the same in the directory. -/
theorem requests_isolated (srv : RpcServer) (t : Tree) (r : List Name)
    (mine : Os × Request → Bool) (calls : List (Os × Request)) (h : srv.Plain t)
    (hc : srv.Careful t calls) (halone : srv.Careful t (calls.filter mine))
    (hin : ∀ call ∈ calls, mine call = true → call.2.command.Inside r)
    (hout : ∀ call ∈ calls, mine call = false → call.2.command.Outside r) :
    ∃ answers,
      List.Forall₂ Replied ((srv.replies t calls).filter fun reply => mine reply.1) answers ∧
      List.Forall₂ Replied (srv.replies t (calls.filter mine)) answers ∧
      ∃ (h₁ : srv.Plain (srv.left t calls)) (h₂ : srv.Plain (srv.left t (calls.filter mine))),
        FileTree.SameInside r h₂.view h₁.view := by
  obtain ⟨hreplied, h₁, hview₁⟩ := h.replied hc
  obtain ⟨hreplied', h₂, hview₂⟩ := h.replied halone
  obtain ⟨hanswers, hsame⟩ := FileTree.isolated asCommand mine calls hin hout
    (fun q _ => rfl : FileTree.SameInside r h.view h.view)
  refine ⟨_, ?_, hreplied', h₁, h₂, ?_⟩
  · rw [← hanswers]
    exact List.rel_filter (fun reply answer hr =>
      iff_of_eq (congrArg (fun call => mine call = true) hr.1)) hreplied
  · rw [hview₁, hview₂]
    exact hsame

/-- The tree with a directory is plain. -/
theorem treeWithDir_plain : serverAtR.Plain treeWithDir :=
  .of_entries ⟨⟨by decide, by decide⟩, by decide⟩ (by decide) (by decide)

/-- A file in a directory is written to, another is created outside of the directory, and the
    directory is listed. -/
def writeA : Os × Request := (.atTime ⟨1, 0⟩, .write "d/a" 0 [4] true)

@[inherit_doc writeA]
def listD : Os × Request := (.atTime ⟨3, 0⟩, .readDir "d")

/-- The command of `writeA`. -/
theorem command_writeA :
    writeA.2.command = .write [Utf8.encode "d", Utf8.encode "a"] none [4] :=
  onPath_of_some (by decide)

/-- The command of `listD`. -/
theorem command_listD : listD.2.command = .list [Utf8.encode "d"] :=
  onPath_of_some (by decide)

/-- The client that keeps to the directory writes and lists, whatever is created beside it. -/
theorem requests_isolated_dir :
    ∃ answers,
      List.Forall₂ Replied ((serverAtR.replies treeWithDir [writeA, createG, listD]).filter
        fun reply => reply.1.1.now.secs % 2 == 1) answers ∧
      List.Forall₂ Replied (serverAtR.replies treeWithDir [writeA, listD]) answers ∧
      ∃ (h₁ : serverAtR.Plain (serverAtR.left treeWithDir [writeA, createG, listD]))
        (h₂ : serverAtR.Plain (serverAtR.left treeWithDir [writeA, listD])),
        FileTree.SameInside [Utf8.encode "d"] h₂.view h₁.view := by
  have hcareful : serverAtR.Careful treeWithDir [writeA, createG, listD] :=
    careful_of_mild treeWithDir_plain rfl (by simp [writeA, createG, listD, Mild])
  have halone : serverAtR.Careful treeWithDir [writeA, listD] :=
    careful_of_mild treeWithDir_plain rfl (by simp [writeA, listD, Mild])
  refine requests_isolated serverAtR treeWithDir [Utf8.encode "d"]
    (fun call => call.1.now.secs % 2 == 1) [writeA, createG, listD] treeWithDir_plain hcareful
    halone ?_ ?_
  · intro call hmem hmine
    simp only [List.mem_cons, List.not_mem_nil, or_false] at hmem
    rcases hmem with rfl | rfl | rfl
    · rw [command_writeA]
      rintro q rfl
      exact List.prefix_append [Utf8.encode "d"] [Utf8.encode "a"]
    · cases hmine
    · rw [command_listD]
      rintro q (rfl | ⟨n, rfl⟩)
      · exact List.prefix_refl _
      · exact List.prefix_append _ _
  · intro call hmem hmine
    simp only [List.mem_cons, List.not_mem_nil, or_false] at hmem
    rcases hmem with rfl | rfl | rfl
    · cases hmine
    · rw [command_createG]
      rintro q rfl
      decide
    · cases hmine

end RpcServer

end Netfilum
