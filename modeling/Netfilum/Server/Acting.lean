import Netfilum.Server.Resolve

namespace Netfilum

open Posix Program Rust

/-!
# Acting on an object

`Write`, `SetLen` and `SetBasicInfo` change nothing but the object their path leads to.

* `About` — a path that the server accepts leads to this location.
* `sameBut_writeFile`, `sameBut_setLen`, `sameBut_setBasicInfo` — nothing else changes.
* `sameBut_dispatch` — all requests of this kind.
-/

variable {srv : RpcServer} {os : Os} {t t' : Tree} {relative : String} {path : PathBuf} {q : Loc}

namespace RpcServer

/-- If the server accepts the path, it leads to `q`. -/
def About (srv : RpcServer) (t : Tree) (relative : String) (q : Loc) : Prop :=
  ∀ path q', srv.Existing t relative path q' → q' = q

/-- Two steps change only this object if each of them does. -/
theorem sameBut_bind {α β : Type} {x : ServerM α} {f : α → ServerM β}
    (hx : Respects (SameBut q) x t)
    (hf : ∀ a t', x t = .ok a t' → Respects (SameBut q) (f a) t') :
    Respects (SameBut q) (x >>= f) t := by
  refine Respects.bind ?_ hx hf
  exact SameBut.trans

/-- A quiet step changes no object. -/
theorem sameBut_of_quiet {ε α : Type} {x : EStateM ε Tree α} (h : Quiet x) :
    Respects (SameBut q) x t := h.respects (SameBut.refl q) t

/-- A call that fails changes nothing. -/
theorem sameBut_call {p : PathBuf} {f : Tree → Except Errno Tree}
    (h : ∀ t', Fs.effect p f t = .ok () t' → SameBut q t t') :
    Respects (SameBut q) (Fs.effect p f) t :=
  .attempt (SameBut.refl q) fun _ t' hok => h t' (attempt_of_ok hok)

/-- Writing changes the file that is open only. -/
theorem sameBut_writeAll (f : Fs.File) (data : List UInt8) :
    Respects (SameBut f.loc) (io (Fs.writeAll os f data)) t := by
  refine .mapError ?_
  unfold Respects Fs.writeAll
  split
  · exact .refl _ t
  · cases Fs.dataAt t f.loc with
    | none => exact .refl _ t
    | some old =>
      dsimp only
      split
      · exact .store f.loc t os _
      · split
        · exact .store f.loc t os _
        · exact .refl _ t

/-- Setting the length changes the file that is open only. -/
theorem sameBut_setLenCall (f : Fs.File) (size : Nat) :
    Respects (SameBut f.loc) (io (Fs.setLen os f size)) t := by
  refine .mapError (.attempt (SameBut.refl _) fun u t' hok => ?_)
  obtain ⟨-, hok⟩ := ite_error_eq_ok.mp hok
  obtain ⟨-, hok⟩ := ite_error_eq_ok.mp hok
  cases hd : Fs.dataAt t f.loc with
  | none => rw [hd] at hok; cases hok
  | some old =>
    rw [hd] at hok
    cases hok
    exact .store f.loc t os _

/-! ### Attributes -/

/-- Setting permissions changes the object to which the path leads only. -/
theorem sameBut_setPermissions (hres : resolve t path = .ok q) (mode : UInt32) :
    Respects (SameBut q) (Fs.setPermissions os path mode) t := by
  refine sameBut_call fun t' hok => ?_
  obtain ⟨-, q', hres', rfl⟩ := Fs.setPermissions_eq_ok.mp hok
  rw [hres] at hres'
  cases hres'
  exact .setAttr q t _

/-- Setting times changes the object to which the path leads only. -/
theorem sameBut_setFileTimes (hres : resolve t path = .ok q) (atime mtime : Time) :
    Respects (SameBut q) (Fs.setFileTimes os path atime mtime) t := by
  refine sameBut_call fun t' hok => ?_
  obtain ⟨-, -, hset⟩ := Fs.setFileTimes_eq_ok.mp hok
  split at hset
  · rw [← hset]
    exact .refl _ t
  · obtain ⟨q', hres', rfl⟩ := hset
    rw [hres] at hres'
    cases hres'
    exact .setAttr q t _

/-- `set_readonly` changes the object to which the path leads only. -/
theorem sameBut_setReadonly (hres : resolve t path = .ok q) (readonly : Bool) :
    Respects (SameBut q) (setReadonly os path readonly) t := by
  refine Respects.bind ?_ (sameBut_of_quiet (.observe _)) fun metadata t1 hmeta => ?_
  · exact SameBut.trans
  · obtain ⟨-, -, rfl⟩ := Fs.metadata_eq_ok.mp hmeta
    exact sameBut_setPermissions hres _

/-! ### The requests -/

/-- Moving the position keeps the file. -/
theorem seekFor_loc {f f' : Fs.File} {offset : UInt64} {toEof : Bool}
    (h : seekFor os f offset toEof t = .ok f' t') : f'.loc = f.loc := by
  unfold seekFor at h
  split at h
  · obtain ⟨hseek, -⟩ := observe_eq_ok.mp (io_eq_ok.mp h)
    cases hd : Fs.dataAt t f.loc with
    | none => rw [hd] at hseek; cases hseek
    | some data => rw [hd] at hseek; cases hseek; rfl
  · have hseek := io_eq_ok.mp h
    unfold Fs.seekStart at hseek
    split at hseek
    · cases hseek; rfl
    · cases hseek

/-- `write_file` changes the object at its path only. -/
theorem sameBut_writeFile (habout : srv.About t relative q) (offset : UInt64)
    (data : List UInt8) (toEof : Bool) :
    Respects (SameBut q) (srv.writeFile os relative offset data toEof) t := by
  refine sameBut_bind (sameBut_of_quiet quiet_resolveExisting) fun p t1 hp => ?_
  obtain ⟨⟨q', hex⟩, rfl⟩ := resolveExisting_eq_ok.mp hp
  obtain rfl := habout p q' hex
  refine sameBut_bind (sameBut_of_quiet (quiet_query _ _)) fun f t2 hf => ?_
  obtain ⟨-, hres, -, -, rfl⟩ := Fs.openWrite_eq_ok.mp (io_eq_ok.mp hf)
  rw [hex.resolves] at hres
  cases hres
  refine sameBut_bind (sameBut_of_quiet (quiet_seekFor _ _ _)) fun f' t3 hf' => ?_
  obtain rfl := (quiet_seekFor _ _ _).state_eq hf'
  have hloc : f'.loc = f.loc := seekFor_loc hf'
  rw [← hloc]
  refine sameBut_bind (sameBut_writeAll f' data) fun _ t4 _ => ?_
  exact sameBut_bind (sameBut_of_quiet (.mapError (.pure _))) fun _ t5 _ =>
    sameBut_of_quiet (.bind (quiet_attrForPath p) fun _ => .pure _)

/-- `set_len` changes the object at its path only. -/
theorem sameBut_setLen (habout : srv.About t relative q) (size : UInt64) (allocation : Bool) :
    Respects (SameBut q) (srv.setLen os relative size allocation) t := by
  refine sameBut_bind (sameBut_of_quiet quiet_resolveExisting) fun p t1 hp => ?_
  obtain ⟨⟨q', hex⟩, rfl⟩ := resolveExisting_eq_ok.mp hp
  obtain rfl := habout p q' hex
  refine sameBut_bind ?_ fun _ t2 _ => sameBut_of_quiet (quiet_attrForPath p)
  split
  · exact sameBut_of_quiet (.pure ())
  · refine sameBut_bind (sameBut_of_quiet (quiet_query _ _)) fun f t2 hf => ?_
    obtain ⟨-, hres, -, -, rfl⟩ := Fs.openWrite_eq_ok.mp (io_eq_ok.mp hf)
    rw [hex.resolves] at hres
    cases hres
    exact sameBut_setLenCall f _

/-- `set_basic_info` changes the object at its path only. -/
theorem sameBut_setBasicInfo (habout : srv.About t relative q) (update : BasicInfoUpdate) :
    Respects (SameBut q) (srv.setBasicInfo os relative update) t := by
  refine sameBut_bind (sameBut_of_quiet quiet_resolveExisting) fun p t1 hp => ?_
  obtain ⟨⟨q', hex⟩, rfl⟩ := resolveExisting_eq_ok.mp hp
  obtain rfl := habout p q' hex
  refine sameBut_bind ?_ fun _ t2 hro => ?_
  · cases update.readonly with
    | none => exact sameBut_of_quiet (.pure ())
    | some readonly => exact .mapError (sameBut_setReadonly hex.resolves readonly)
  · have hres : resolve t2 p = .ok q' := by
      rw [resolve_congr ((still_readonlyStep p _).shape_eq hro), hex.resolves]
    refine sameBut_bind (sameBut_of_quiet (quiet_currentAccessTime p)) fun atime t3 hat => ?_
    obtain rfl := (quiet_currentAccessTime p).state_eq hat
    refine sameBut_bind (sameBut_of_quiet (quiet_currentModifiedTime p)) fun mtime t4 hmt => ?_
    obtain rfl := (quiet_currentModifiedTime p).state_eq hmt
    refine sameBut_bind ?_ fun _ t5 _ => sameBut_of_quiet (quiet_attrForPath p)
    split
    · exact .mapError (sameBut_setFileTimes hres _ _)
    · exact sameBut_of_quiet (.pure ())

/-- The path of a request that acts on the object the path leads to. -/
def actsOn : Request → Option String
  | .read path _ _ | .write path _ _ _ | .setLen path _ _ | .setBasicInfo path _ => some path
  | _ => none

/-- Such a request changes nothing else. -/
theorem sameBut_dispatch (habout : srv.About t relative q) {request : Request}
    (h : actsOn request = some relative) : SameBut q t (final (srv.dispatch os request t)) := by
  show Respects (SameBut q) (srv.dispatch os request) t
  cases request with
  | read path offset length =>
    exact sameBut_of_quiet (.map (quiet_readFile offset length))
  | write path offset data toEof =>
    cases h
    exact sameBut_writeFile habout offset data toEof
  | setLen path size allocation =>
    cases h
    exact .map (sameBut_setLen habout size allocation)
  | setBasicInfo path update =>
    cases h
    exact .map (sameBut_setBasicInfo habout update)
  | _ => cases h

end RpcServer

end Netfilum
