import Netfilum.Server.Resolve

namespace Netfilum

open Posix Program Rust

/-!
# What `SetBasicInfo` does

`RpcServer::set_basic_info` changes the mode, reads both times and writes them back, each
step on its own.

* `setBasicInfo_cases` — it fails on the times with the mode already changed, or sets
  exactly what `nextPerm` and `nextTime` say.
* `setBasicInfo_unharmed_iff` — a request that fails leaves everything alone exactly when
  it does not change the mode before a time the system rejects.
-/

variable {srv : RpcServer} {os : Os} {t t' : Tree} {relative : String} {path : PathBuf}
  {q : Loc} {e : Entry} {update : BasicInfoUpdate}

/-- A time as the system keeps it. -/
structure Proper (time : Time) : Prop where
  lower : -2 ^ 63 ≤ time.secs
  upper : time.secs < 2 ^ 63
  nanos : time.nanos < 10 ^ 9

instance (time : Time) : Decidable (Proper time) :=
  decidable_of_iff (-2 ^ 63 ≤ time.secs ∧ time.secs < 2 ^ 63 ∧ time.nanos < 10 ^ 9)
    ⟨fun ⟨a, b, c⟩ => ⟨a, b, c⟩, fun ⟨a, b, c⟩ => ⟨a, b, c⟩⟩

/-- Every entry carries times as the system keeps them. -/
def Timed (t : Tree) : Prop :=
  ∀ e ∈ t.entries, Proper e.attr.atime ∧ Proper e.attr.mtime

instance (t : Tree) : Decidable (Timed t) :=
  inferInstanceAs (Decidable (∀ e ∈ t.entries, Proper e.attr.atime ∧ Proper e.attr.mtime))

namespace RpcServer

/-! ### The values that are set -/

/-- The mode that `set_readonly` asks for. -/
def readonlyMode (readonly : Bool) (e : Entry) : UInt32 :=
  if readonly then modeOf e &&& ~~~0o222 else modeOf e ||| 0o200

/-- The permission bits afterwards. -/
def nextPerm (readonly : Option Bool) (e : Entry) : UInt32 :=
  match readonly with
  | none          => e.attr.perm
  | some readonly => readonlyMode readonly e &&& 0o7777

/-- What `current_access_time` and `current_modified_time` make of a time. -/
def currentTime (os : Os) (old : Time) : Time :=
  ((systemTimeToWire (some old)).bind fileTimeToFiletime).getD os.now

/-- The time that is asked of the system. -/
def nextTime (os : Os) (requested : Option FileTimeValue) (old : Time) : Time :=
  (requested.bind fileTimeToFiletime).getD (currentTime os old)

/-- Whether the update asks for any time to be set. -/
def GivesTime (update : BasicInfoUpdate) : Prop :=
  update.lastAccessTime.isSome ∨ update.lastWriteTime.isSome

instance (update : BasicInfoUpdate) : Decidable (GivesTime update) :=
  inferInstanceAs (Decidable (_ ∨ _))

/-- The tree once the mode is changed. -/
def withReadonly (os : Os) (q : Loc) (e : Entry) (readonly : Option Bool) (t : Tree) : Tree :=
  match readonly with
  | none          => t
  | some readonly => t.setAttr q fun a =>
      { a with perm := readonlyMode readonly e &&& 0o7777, ctime := os.now }

/-- The mode is changed and nothing else. -/
theorem look_withReadonly (os : Os) (he : t.look q = some e) (readonly : Option Bool) :
    ∃ c, (withReadonly os q e readonly t).look q
      = some { e with attr := { e.attr with perm := nextPerm readonly e, ctime := c } } := by
  cases readonly with
  | none => exact ⟨e.attr.ctime, he⟩
  | some readonly => exact ⟨os.now, Tree.look_setAttr_self he⟩

/-- The step for the read-only flag changes this object only. -/
theorem sameBut_withReadonly (os : Os) (q : Loc) (e : Entry) (readonly : Option Bool) (t : Tree) :
    SameBut q t (withReadonly os q e readonly t) := by
  cases readonly with
  | none => exact .refl q t
  | some readonly => exact .setAttr q t _

/-- The step for the read-only flag changes no shape. -/
theorem shape_withReadonly (os : Os) (q : Loc) (e : Entry) (readonly : Option Bool) (t : Tree) :
    (withReadonly os q e readonly t).shape = t.shape := by
  cases readonly with
  | none => rfl
  | some readonly => exact Tree.shape_setAttr q _

/-! ### The run -/

/-- The tree leads the path to the object, and can be asked for it. -/
theorem metadata_of_leads (hl : Fs.Leads t path q) (he : t.look q = some e) :
    io (Fs.metadata path) t = .ok e t :=
  io_eq_ok.mpr (Fs.metadata_eq_ok.mpr ⟨hl.1, ⟨q, hl.2, he⟩, rfl⟩)

/-- `set_readonly` sets the permissions where the path leads. -/
theorem setReadonly_of_leads (os : Os) (hl : Fs.Leads t path q) (he : t.look q = some e)
    (readonly : Bool) :
    setReadonly os path readonly t = .ok () (withReadonly os q e (some readonly) t) := by
  have hmeta : Fs.metadata path t = .ok e t := io_eq_ok.mp (metadata_of_leads hl he)
  unfold setReadonly
  rw [bind_of_ok hmeta]
  exact Fs.setPermissions_eq_ok.mpr ⟨hl.1, q, hl.2, rfl⟩

/-- The steps of the request before the times are set. -/
theorem setBasicInfo_apply (os : Os) (hex : srv.Existing t relative path q)
    (he : t.look q = some e) (update : BasicInfoUpdate) :
    srv.setBasicInfo os relative update t
      = ((if GivesTime update then
          io (Fs.setFileTimes os path (nextTime os update.lastAccessTime e.attr.atime)
            (nextTime os update.lastWriteTime e.attr.mtime)) else pure ())
          >>= fun _ => attrForPath path) (withReadonly os q e update.readonly t) := by
  obtain ⟨c, hlook⟩ := look_withReadonly os he update.readonly
  have hl : Fs.Leads (withReadonly os q e update.readonly t) path q :=
    ⟨hex.nul, by rw [resolve_congr (shape_withReadonly os q e update.readonly t), hex.resolves]⟩
  have hmeta := metadata_of_leads hl hlook
  have hatime : currentAccessTime os path (withReadonly os q e update.readonly t)
      = .ok (currentTime os e.attr.atime) (withReadonly os q e update.readonly t) := by
    unfold currentAccessTime
    rw [bind_of_ok hmeta]
    rfl
  have hmtime : currentModifiedTime os path (withReadonly os q e update.readonly t)
      = .ok (currentTime os e.attr.mtime) (withReadonly os q e update.readonly t) := by
    unfold currentModifiedTime
    rw [bind_of_ok hmeta]
    rfl
  refine (bind_of_ok (resolveExisting_eq_ok.mpr ⟨⟨q, hex⟩, rfl⟩)).trans ?_
  obtain ⟨readonly, creation, access, write, change⟩ := update
  cases readonly with
  | none =>
    have hstep : (pure () : ServerM Unit) t = .ok () t := rfl
    exact (bind_of_ok hstep).trans ((bind_of_ok hatime).trans (bind_of_ok hmtime))
  | some readonly =>
    have hstep := io_eq_ok.mpr (setReadonly_of_leads os ⟨hex.nul, hex.resolves⟩ he readonly)
    exact (bind_of_ok hstep).trans ((bind_of_ok hatime).trans (bind_of_ok hmtime))

/-- The object after a request that succeeded. -/
structure Updated (os : Os) (update : BasicInfoUpdate) (q : Loc) (e : Entry) (t t' : Tree)
    (e' : Entry) : Prop where
  entry  : t'.look q = some e'
  body   : e'.body = e.body
  perm   : e'.attr.perm = nextPerm update.readonly e
  atime  : e'.attr.atime = if GivesTime update then
    Fs.stampTime os e.attr.atime (nextTime os update.lastAccessTime e.attr.atime) else e.attr.atime
  mtime  : e'.attr.mtime = if GivesTime update then
    Fs.stampTime os e.attr.mtime (nextTime os update.lastWriteTime e.attr.mtime) else e.attr.mtime
  others : SameBut q t t'
  shape  : t'.shape = t.shape

/-- The system takes both times that the request makes of it. -/
def Accepted (os : Os) (update : BasicInfoUpdate) (e : Entry) : Prop :=
  Fs.validTime (nextTime os update.lastAccessTime e.attr.atime) = true ∧
    Fs.validTime (nextTime os update.lastWriteTime e.attr.mtime) = true

/-- Setting the times of the object: it fails if the system does not take one of them. -/
theorem setFileTimes_cases {atime mtime : Time} (os : Os) (hl : Fs.Leads t path q)
    (he : t.look q = some e) :
    (¬ (Fs.validTime atime = true ∧ Fs.validTime mtime = true) ∧
      ∃ err, io (Fs.setFileTimes os path atime mtime) t = .error err t) ∨
    (Fs.validTime atime = true ∧ Fs.validTime mtime = true) ∧
      ∃ c t', io (Fs.setFileTimes os path atime mtime) t = .ok () t' ∧ SameBut q t t' ∧
        t'.shape = t.shape ∧
        t'.look q = some { e with attr := { e.attr with atime := Fs.stampTime os e.attr.atime atime,
                                                        mtime := Fs.stampTime os e.attr.mtime mtime,
                                                        ctime := c } } := by
  by_cases hvalid : Fs.validTime atime = true ∧ Fs.validTime mtime = true
  · refine .inr ⟨hvalid, ?_⟩
    by_cases homit : atime.nanos = Fs.utimeOmit ∧ mtime.nanos = Fs.utimeOmit
    · -- nothing is asked for, and nothing changes
      have hnow : Fs.utimeOmit ≠ Fs.utimeNow := by decide
      have hold : ∀ old time : Time, time.nanos = Fs.utimeOmit → Fs.stampTime os old time = old :=
        fun old time h => by
          unfold Fs.stampTime
          rw [h, if_neg hnow, if_pos rfl]
      refine ⟨e.attr.ctime, t, io_eq_ok.mpr (Fs.setFileTimes_eq_ok.mpr ⟨hl.1, hvalid, ?_⟩),
        .refl q t, rfl, ?_⟩
      · rw [if_pos homit]
      · rw [hold _ _ homit.1, hold _ _ homit.2, he]
    · -- both times are stamped, and the status changes now
      have hcall : io (Fs.setFileTimes os path atime mtime) t = .ok () (t.setAttr q fun a =>
          { a with atime := Fs.stampTime os a.atime atime, mtime := Fs.stampTime os a.mtime mtime,
                   ctime := os.now }) := by
        refine io_eq_ok.mpr (Fs.setFileTimes_eq_ok.mpr ⟨hl.1, hvalid, ?_⟩)
        rw [if_neg homit]
        exact ⟨q, hl.2, rfl⟩
      exact ⟨os.now, _, hcall, .setAttr q t _, Tree.shape_setAttr q _, Tree.look_setAttr_self he⟩
  · refine .inl ⟨hvalid, ?_⟩
    cases hcall : Fs.setFileTimes os path atime mtime t with
    | ok u t' => exact absurd (Fs.setFileTimes_eq_ok.mp hcall).2.1 hvalid
    | error err t' =>
      obtain rfl := Fs.effect_error hcall
      exact ⟨_, mapError_of_error hcall⟩

/-- On an object, the request fails on the times with the mode already changed, or sets
    everything it set out to. -/
theorem setBasicInfo_cases (os : Os) (hex : srv.Existing t relative path q)
    (he : t.look q = some e) (update : BasicInfoUpdate) :
    (GivesTime update ∧ ¬ Accepted os update e ∧
      ∃ err, srv.setBasicInfo os relative update t
        = .error err (withReadonly os q e update.readonly t)) ∨
    (GivesTime update → Accepted os update e) ∧
      ∃ e' t', srv.setBasicInfo os relative update t = .ok (attrOf e') t' ∧
        Updated os update q e t t' e' := by
  rw [setBasicInfo_apply os hex he update]
  obtain ⟨c, hlook⟩ := look_withReadonly os he update.readonly
  have hshape := shape_withReadonly os q e update.readonly t
  have hsame := sameBut_withReadonly os q e update.readonly t
  -- changed attributes leave the path leading where it led
  have hl : ∀ t', t'.shape = t.shape → Fs.Leads t' path q := fun t' ht' =>
    ⟨hex.nul, by rw [resolve_congr ht', hex.resolves]⟩
  have hattr : ∀ t' e', t'.shape = t.shape → t'.look q = some e' →
      attrForPath path t' = .ok (attrOf e') t' := fun t' e' ht' he' =>
    attrForPath_eq_ok.mpr ⟨⟨q, e', hl t' ht', he', rfl⟩, rfl⟩
  by_cases hgives : GivesTime update
  · rw [if_pos hgives]
    rcases setFileTimes_cases os (hl _ hshape) hlook with
      ⟨hno, err, hcall⟩ | ⟨hvalid, c', t', hcall, hsame', hshape', hlook'⟩
    · -- the mode was changed before
      exact .inl ⟨hgives, hno, err, bind_of_error hcall⟩
    · have hshape'' := hshape'.trans hshape
      refine .inr ⟨fun _ => hvalid, _, t', ?_,
        ⟨hlook', rfl, rfl, ?_, ?_, hsame.trans hsame', hshape''⟩⟩
      · rw [bind_of_ok hcall, hattr t' _ hshape'' hlook']
      · rw [if_pos hgives]
      · rw [if_pos hgives]
  · rw [if_neg hgives]
    refine .inr ⟨fun h => absurd h hgives, _, _, ?_, ⟨hlook, rfl, rfl, ?_, ?_, hsame, hshape⟩⟩
    · exact hattr _ _ hshape hlook
    · rw [if_neg hgives]
    · rw [if_neg hgives]

/-! ### The read-only bit -/

/-- The read-only attribute is set where nobody may write. -/
theorem readonly_attrOf (e : Entry) :
    (attrOf e).readonly = decide (e.attr.perm &&& 0o222 = 0) := by
  show decide (modeOf e &&& 0o222 = 0) = _
  have hmode : modeOf e &&& 0o222 = e.attr.perm &&& 0o222 := by
    unfold modeOf
    rw [or_and_distrib]
    split
    · rw [show (0o040000 : UInt32) &&& 0o222 = 0 by decide, UInt32.zero_or]
    · rw [show (0o100000 : UInt32) &&& 0o222 = 0 by decide, UInt32.zero_or]
  rw [hmode]

/-- The mode that is set is read-only if it was asked to be. -/
theorem nextPerm_readonly (readonly : Bool) (e : Entry) :
    decide (nextPerm (some readonly) e &&& 0o222 = 0) = readonly := by
  show decide (readonlyMode readonly e &&& 0o7777 &&& 0o222 = 0) = _
  rw [UInt32.and_assoc, show (0o7777 : UInt32) &&& 0o222 = 0o222 by decide]
  unfold readonlyMode
  cases readonly with
  | true =>
    rw [if_pos rfl, UInt32.and_assoc, UInt32.not_and_self, UInt32.and_zero]
    rfl
  | false =>
    rw [if_neg Bool.false_ne_true, or_and_distrib]
    -- the write bit of the owner is set
    refine decide_eq_false fun h => ?_
    have hbit := (UInt32.or_eq_zero_iff.mp h).2
    revert hbit
    decide

/-! ### Times on the way out and back -/

/-- A proper time from the epoch on crosses the wire unchanged. -/
theorem fileTimeToFiletime_systemTimeToWire {time : Time} (h : Proper time) :
    (systemTimeToWire (some time)).bind fileTimeToFiletime
      = if time.secs < 0 then none else some time := by
  show (if time.secs < 0 then none else
    some (⟨Int64.ofInt time.secs, UInt32.ofNat time.nanos⟩ : FileTimeValue)).bind fileTimeToFiletime
      = _
  split
  · rfl
  · rename_i hneg
    -- both parts fit in the fields of the wire
    have hsecs : (Int64.ofInt time.secs).toInt = time.secs :=
      Int64.toInt_ofInt_of_le h.lower h.upper
    have hnanos : (UInt32.ofNat time.nanos).toNat = time.nanos := by
      have hlt := h.nanos
      refine UInt32.toNat_ofNat_of_lt' (show time.nanos < 2 ^ 32 from ?_)
      omega
    have hwire : ¬ Int64.ofInt time.secs < 0 := by
      rw [Int64.lt_iff_toInt_lt, hsecs, Int64.toInt_zero]
      exact hneg
    show fileTimeToFiletime ⟨Int64.ofInt time.secs, UInt32.ofNat time.nanos⟩ = _
    unfold fileTimeToFiletime
    rw [if_neg hwire, hsecs, hnanos]

/-- The current time that is written back: the clock, for one before the epoch. -/
theorem currentTime_of_proper {time : Time} (h : Proper time) (os : Os) :
    currentTime os time = if time.secs < 0 then os.now else time := by
  unfold currentTime
  rw [fileTimeToFiletime_systemTimeToWire h]
  split <;> rfl

/-- A proper time can be written. -/
theorem valid_of_proper {time : Time} (h : Proper time) : Fs.validTime time = true :=
  decide_eq_true (.inl h.nanos)

/-- A requested time that the server passes on and the system does not take. -/
def Rejected (requested : Option FileTimeValue) : Prop :=
  ∃ time, requested.bind fileTimeToFiletime = some time ∧ Fs.validTime time = false

/-- The time that is to be set can be written, unless the one asked for is rejected. -/
theorem validTime_nextTime_iff {old : Time} {requested : Option FileTimeValue}
    (hold : Proper old) (hnow : Proper os.now) :
    Fs.validTime (nextTime os requested old) = true ↔ ¬ Rejected requested := by
  unfold nextTime Rejected
  cases hreq : requested.bind fileTimeToFiletime with
  -- no time is asked for: the one written back is proper
  | none =>
    have hcurrent : Proper (currentTime os old) := by
      rw [currentTime_of_proper hold]
      split
      · exact hnow
      · exact hold
    exact iff_of_true (valid_of_proper hcurrent) (by simp)
  | some time =>
    rw [Option.getD_some]
    simp

/-! ### A request that fails -/

/-- The entry without its status-change time. -/
def steady (e : Entry) : Entry := { e with attr := { e.attr with ctime := ⟨0, 0⟩ } }

/-- Everything is as before, but for the status-change time of the object the path leads to. -/
structure Unharmed (srv : RpcServer) (relative : String) (t t' : Tree) : Prop where
  object : ∀ v, (t'.look v).map steady = (t.look v).map steady
  others : ∀ v, (∀ path, ¬ srv.Existing t relative path v) → t'.look v = t.look v

/-- The request changes the mode, and then asks for a time that the system rejects. -/
def HalfDone (srv : RpcServer) (t : Tree) (relative : String) (update : BasicInfoUpdate) : Prop :=
  ∃ path q e, srv.Existing t relative path q ∧ t.look q = some e ∧
    nextPerm update.readonly e ≠ e.attr.perm ∧
    (Rejected update.lastAccessTime ∨ Rejected update.lastWriteTime)

/-- A rejected time is one that was given. -/
theorem givesTime_of_rejected
    (h : Rejected update.lastAccessTime ∨ Rejected update.lastWriteTime) : GivesTime update := by
  have hsome : ∀ requested, Rejected requested → requested.isSome = true := by
    rintro (_ | value) ⟨time, hbind, -⟩
    · cases hbind
    · rfl
  rcases h with h | h
  · exact .inl (hsome _ h)
  · exact .inr (hsome _ h)

/-- An update is accepted, unless one of the times asked for is rejected. -/
theorem accepted_iff (ht : Timed t) (hnow : Proper os.now) (he : t.look q = some e) :
    Accepted os update e ↔ ¬ (Rejected update.lastAccessTime ∨ Rejected update.lastWriteTime) := by
  obtain ⟨hatime, hmtime⟩ := ht e (Tree.mem_of_look he)
  unfold Accepted
  rw [validTime_nextTime_iff hatime hnow, validTime_nextTime_iff hmtime hnow, not_or]

/-- **A failed `SetBasicInfo` does no damage** exactly when it does not change the mode before
    it asks for a time that the system rejects. -/
theorem setBasicInfo_unharmed_iff (srv : RpcServer) (os : Os) (t : Tree) (relative : String)
    (update : BasicInfoUpdate) (ht : Timed t) (hnow : Proper os.now) :
    (∀ err t', srv.setBasicInfo os relative update t = .error err t' →
      srv.Unharmed relative t t') ↔ ¬ srv.HalfDone t relative update := by
  constructor
  · rintro hsafe ⟨path, q, e, hex, he, hperm, hrejected⟩
    have hno : ¬ Accepted os update e := fun h => (accepted_iff ht hnow he).mp h hrejected
    -- the permissions are set by the time the server refuses the time
    rcases setBasicInfo_cases os hex he update with ⟨-, -, err, hrun⟩ | ⟨hyes, -⟩
    · obtain ⟨c, hlook⟩ := look_withReadonly os he update.readonly
      have hsame := (hsafe err _ hrun).object q
      rw [hlook, he] at hsame
      exact hperm (congrArg (fun e => e.attr.perm) (Option.some.inj hsame))
    · exact hno (hyes (givesTime_of_rejected hrejected))
  · intro hno err t' hrun
    by_cases hex : ∃ path q, srv.Existing t relative path q
    · obtain ⟨path, q, hex⟩ := hex
      obtain ⟨e, he, -⟩ := resolve_look hex.resolves
      rcases setBasicInfo_cases os hex he update with ⟨-, hbad, err', hrun'⟩ | ⟨-, e', t₁, hrun', -⟩
      · rw [hrun'] at hrun
        cases hrun
        -- a time was refused, so no permission was to change
        have hrejected := not_not.mp (mt (accepted_iff ht hnow he).mpr hbad)
        have hperm : nextPerm update.readonly e = e.attr.perm := by
          by_contra hne
          exact hno ⟨path, q, e, hex, he, hne, hrejected⟩
        obtain ⟨c, hlook⟩ := look_withReadonly os he update.readonly
        refine ⟨fun v => ?_, fun v hv => ?_⟩
        · by_cases hvq : v = q
          · subst hvq
            rw [hlook, he, hperm]
            rfl
          · rw [sameBut_withReadonly os q e update.readonly t v hvq]
        · refine sameBut_withReadonly os q e update.readonly t v ?_
          rintro rfl
          exact hv path hex
      · rw [hrun'] at hrun
        cases hrun
    · -- the path leads to nothing that the server accepts
      have hresolve : ∀ path t₁, srv.resolveExisting relative t ≠ .ok path t₁ := by
        intro path t₁ h
        obtain ⟨⟨q, h⟩, -⟩ := resolveExisting_eq_ok.mp h
        exact hex ⟨path, q, h⟩
      cases hres : srv.resolveExisting relative t with
      | ok path t₁ => exact absurd hres (hresolve path t₁)
      | error err' t₁ =>
        have hquiet : final (srv.resolveExisting relative t) = t := quiet_resolveExisting t
        rw [hres, final_error] at hquiet
        have hfail : srv.setBasicInfo os relative update t = .error err' t₁ := bind_of_error hres
        rw [hfail] at hrun
        cases hrun
        rw [hquiet]
        exact ⟨fun _ => rfl, fun _ _ => rfl⟩

/-- The file is made read-only before its access time is rejected. -/
theorem rejected_time_leaves_mode :
    ¬ ∀ err t', serverAtR.setBasicInfo (.atTime ⟨1, 0⟩) "f"
        ⟨some true, none, some ⟨0, 1000000000⟩, none, none⟩ treeWithFile = .error err t' →
      serverAtR.Unharmed "f" treeWithFile t' := by
  intro hsafe
  have hfails : outcome (serverAtR.setBasicInfo (.atTime ⟨1, 0⟩) "f"
      ⟨some true, none, some ⟨0, 1000000000⟩, none, none⟩ treeWithFile)
        = .error (.fromIoError Errno.EINVAL.toIoError) := by decide
  have hmode : ((final (serverAtR.setBasicInfo (.atTime ⟨1, 0⟩) "f"
      ⟨some true, none, some ⟨0, 1000000000⟩, none, none⟩ treeWithFile)).look
        (["r", "f"].map Utf8.encode)).map steady
      ≠ (treeWithFile.look (["r", "f"].map Utf8.encode)).map steady := by decide
  exact hmode ((hsafe _ _ (eq_error_of_outcome hfails)).object _)

/-- The file is made read-only, and a time with the most nanoseconds is accepted. -/
theorem setBasicInfo_unharmed_f :
    (∀ err t', serverAtR.setBasicInfo (.atTime ⟨1, 0⟩) "f"
        ⟨some true, none, none, some ⟨5, 999999999⟩, none⟩ treeWithFile = .error err t' →
      serverAtR.Unharmed "f" treeWithFile t') ↔
    ¬ serverAtR.HalfDone treeWithFile "f" ⟨some true, none, none, some ⟨5, 999999999⟩, none⟩ :=
  setBasicInfo_unharmed_iff serverAtR _ treeWithFile "f" _ (by decide) (by decide)

end RpcServer

end Netfilum
