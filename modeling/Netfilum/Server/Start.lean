import Netfilum.Posix.CreateAll
import Netfilum.Server.Refines

namespace Netfilum

open Posix Program Rust

/-!
# Starting and restarting the server

`RpcServer::new`, which makes the directory to export and finds where its path leads, and the
life of a server whose process ends between two requests and is started again.

* `new_cases` — a start succeeds where the directory is there or can be created, and adds
  directories at most.
* `live` — requests with restarts among them;  `restarts_unnoticed` — as long as the exported
  root is left in place, the restarts make no difference.
-/

variable {srv : RpcServer} {os : Os} {t t' : Tree} {root : PathBuf} {label : String}

namespace RpcServer

/-- `RpcServer::new`. -/
def new (os : Os) (root : PathBuf) (volumeLabel : String) : EStateM IoError Tree RpcServer := do
  Fs.createDirAll os root
  let rootReal ← Fs.canonicalize root
  pure { root, rootReal, volumeLabel }

/-! ### A start -/

/-- The path that has been made leads to the directory that is exported. -/
theorem new_of_created (h : Fs.createDirAll os root t = .ok () t') (hdir : Fs.IsDir t' root)
    (label : String) : ∃ rootReal, new os root label t = .ok ⟨root, rootReal, label⟩ t' ∧
      Exported ⟨root, rootReal, label⟩ t' := by
  obtain ⟨rootReal, ⟨hnul, hres⟩, hshape⟩ := hdir
  refine ⟨rootReal, (bind_of_ok h).trans ?_, ⟨hnul, hres⟩, hshape⟩
  exact bind_of_ok (Fs.canonicalize_eq_ok.mpr ⟨hnul, hres, rfl⟩)

/-- **A start of the server.**  It succeeds if and only if the path of the root leads to a
    directory, or nothing stands at some name on its way; then the root is exported, and nothing
    but directories is added to the tree.  A start that fails changes nothing. -/
theorem new_cases (os : Os) (root : PathBuf) (label : String) (t : Tree) :
    (Fs.Creatable t root ∧ ∃ rootReal t', new os root label t = .ok ⟨root, rootReal, label⟩ t' ∧
      Exported ⟨root, rootReal, label⟩ t' ∧ Added t t' ∧ (Fs.IsDir t root → t' = t)) ∨
    ¬ Fs.Creatable t root ∧ ∃ e, new os root label t = .error e t := by
  rcases Fs.createDirAll_creates os t root with ⟨hdir, hok⟩ |
    ⟨hroom, t', hok, hadded, hempty⟩ | ⟨hno, e, he⟩
  · obtain ⟨rootReal, hnew, hexp⟩ := new_of_created hok hdir label
    exact .inl ⟨.inl hdir, rootReal, t, hnew, hexp, .refl t, fun _ => rfl⟩
  · obtain ⟨rootReal, hnew, hexp⟩ := new_of_created hok hempty.isDir label
    exact .inl ⟨.inr hroom, rootReal, t', hnew, hexp, hadded, fun hdir =>
      absurd hdir (Fs.not_isDir_of_missing hroom.2)⟩
  · exact .inr ⟨hno, e, bind_of_error he⟩

/-- Where the root is exported, a start finds the server that is there. -/
theorem new_of_exported (h : srv.Exported t) (os : Os) :
    new os srv.root srv.volumeLabel t = .ok srv t := by
  rcases Fs.createDirAll_creates os t srv.root with ⟨-, hok⟩ | ⟨⟨-, hroom⟩, -⟩ | ⟨hno, -⟩
  · refine (bind_of_ok hok).trans ?_
    exact bind_of_ok (Fs.canonicalize_eq_ok.mpr ⟨h.1.1, h.1.2, rfl⟩)
  · exact absurd ⟨_, h⟩ (Fs.not_isDir_of_missing hroom)
  · exact absurd (.inl ⟨_, h⟩) hno

/-! ### Restarts -/

/-- What happens to a server: a request, or the end of its process, which is started again with
    the same arguments. -/
inductive Turn where
  | request (call : Os × Request)
  | restart (os : Os)

/-- The requests among the turns. -/
def requests : List Turn → List (Os × Request)
  | []                     => []
  | .request call :: turns => call :: requests turns
  | .restart _ :: turns    => requests turns

/-- The server that runs in the end, with the replies to the requests. -/
def live (srv : RpcServer) :
    List Turn → EStateM IoError Tree (RpcServer × List ((Os × Request) × RpcResult Response))
  | []                     => pure (srv, [])
  | .request call :: turns => fun t =>
    (do
      let (srv', rest) ← srv.live turns
      pure (srv', (call, outcome (srv.dispatch call.1 call.2 t)) :: rest))
    (final (srv.dispatch call.1 call.2 t))
  | .restart os :: turns   => do
    let srv' ← new os srv.root srv.volumeLabel
    srv'.live turns

/-- No request of the run takes an entry that the path of the exported root passes through. -/
def Rooted (srv : RpcServer) : Tree → List (Os × Request) → Prop
  | _, []            => True
  | t, call :: calls =>
    ¬ srv.Uproots call.1 t call.2 ∧ srv.Rooted (final (srv.dispatch call.1 call.2 t)) calls

/-- **Restarts are not noticed.**  A server that is started, serves requests, and is started
    again at any points among them, replies as the one that has not been started again, and
    leaves the same tree, as long as no request takes the exported root away. -/
theorem restarts_unnoticed (srv : RpcServer) (t : Tree) (turns : List Turn)
    (hexp : srv.Exported t) (hrooted : srv.Rooted t (requests turns)) :
    srv.live turns t
      = .ok (srv, srv.replies t (requests turns)) (srv.left t (requests turns)) := by
  induction turns generalizing t with
  | nil => rfl
  | cons turn turns ih =>
    cases turn with
    | request call =>
      obtain ⟨hno, hrest⟩ := hrooted
      exact bind_of_ok (ih _ (exported_step hexp hno) hrest)
    | restart os => exact (bind_of_ok (new_of_exported hexp os)).trans (ih t hexp hrooted)

/-- A file is created between two restarts. -/
theorem restarts_unnoticed_create :
    serverAtR.live [.restart (.atTime ⟨1, 0⟩), .request (.atTime ⟨2, 0⟩, .create "f" .file 0 0),
      .restart (.atTime ⟨3, 0⟩)] emptyTree
      = .ok (serverAtR, serverAtR.replies emptyTree [(.atTime ⟨2, 0⟩, .create "f" .file 0 0)])
        (serverAtR.left emptyTree [(.atTime ⟨2, 0⟩, .create "f" .file 0 0)]) :=
  restarts_unnoticed _ _ _ emptyTree_exported
    ⟨fun ⟨_, _, htakes⟩ => htakes.elim id id, trivial⟩

end RpcServer

end Netfilum
