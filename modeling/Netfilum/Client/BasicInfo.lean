import Netfilum.Client.Link
import Netfilum.Client.Times
import Netfilum.Server.BasicInfo

namespace Netfilum

open Posix Program Rust

/-!
# What `set_basic_info` sets

A time goes from Windows ticks to the wire, to the system, back to the wire and back to
ticks; a time that is not asked for is read and written back.

* `filetime_of_wireTime` — the server drops a requested time before the epoch.
* `reported_iff` — which of the two times survive this.
* `setBasicInfo_exact_iff` — a call that succeeds sets what was asked and nothing else
  exactly when no time involved lies before the epoch.
-/

variable {Buf : Type} {fs : RpcFsContext Tree Buf} {srv : RpcServer} {os : Os}

/-! ### Ticks -/

/-- The start of the Unix epoch in Windows ticks. -/
def unixEpoch : UInt64 := 116444736000000000

/-- What is reported of a time from the epoch on is not before it. -/
theorem unixEpoch_le {value : FileTimeValue} {time : UInt64} (hsecs : 0 ≤ value.secs.toInt)
    (h : windowsTimeFromWire (some value) = .ok time) : unixEpoch ≤ time := by
  refine UInt64.le_iff_toNat_le.mpr ?_
  show 116444736000000000 ≤ time.toNat
  have hexact := exactTicks_eq value
  by_cases hfits : ShiftFits value
  · obtain ⟨time', hok, htime⟩ := windowsTime_fits (by omega) hfits
    rw [h] at hok
    cases hok
    omega
  · rw [windowsTime_overflow hfits] at h
    cases h

/-! ### One time -/

/-- The server drops a requested time before the epoch. -/
theorem filetime_of_wireTime {time : UInt64} {value : FileTimeValue} (hreq : Requested time)
    (hwire : wireTimeFromWindows time = some value) :
    fileTimeToFiletime value
      = if unixEpoch ≤ time then some ⟨value.secs.toInt, value.nanos.toNat⟩ else none := by
  obtain ⟨value', hwire', hsecs, -⟩ := wireTime_of_requested hreq
  rw [hwire] at hwire'
  cases hwire'
  have hepoch : unixEpoch ≤ time ↔ 116444736000000000 ≤ time.toNat := UInt64.le_iff_toNat_le
  have hneg : value.secs < 0 ↔ ¬ unixEpoch ≤ time := by
    rw [Int64.lt_iff_toInt_lt, Int64.toInt_zero, hepoch]
    omega
  unfold fileTimeToFiletime
  by_cases h : unixEpoch ≤ time
  · rw [if_pos h, if_neg fun hlt => hneg.mp hlt h]
  · rw [if_neg h, if_pos (hneg.mpr h)]

/-- The system stores a time whose nanoseconds have no meaning of their own. -/
theorem stampTime_of_lt {old new : Time} (h : new.nanos < 10 ^ 9) :
    Fs.stampTime os old new = new := by
  have hnow : Fs.utimeNow = 1073741823 := by decide
  have homit : Fs.utimeOmit = 1073741822 := by decide
  unfold Fs.stampTime
  rw [if_neg (by omega), if_neg (by omega)]

open RpcServer in
/-- A time that is written back is the old one, or the clock's. -/
theorem stampTime_currentTime {old : Time} (hold : Proper old) (hnow : Proper os.now) :
    Fs.stampTime os old (currentTime os old) = if old.secs < 0 then os.now else old := by
  rw [currentTime_of_proper hold]
  split
  · exact stampTime_of_lt hnow.nanos
  · exact stampTime_of_lt hold.nanos

/-- A stored time from the epoch on is put on the wire. -/
theorem systemTimeToWire_of_nonneg {time : Time} (h : ¬ time.secs < 0) :
    systemTimeToWire (some time)
      = some ⟨Int64.ofInt time.secs, UInt32.ofNat time.nanos⟩ := if_neg h

open RpcServer in
/-- What a request for `time` writes is reported as that time, unless it lies before the Unix
    epoch. -/
theorem reported_requested_iff {time result : UInt64} {old : Time} (hold : Proper old)
    (hnow : Proper os.now) (hreq : Requested time)
    (hreport : windowsTimeFromWire (systemTimeToWire
      (some (Fs.stampTime os old (nextTime os (wireTimeFromWindows time) old)))) = .ok result) :
    result = time ↔ unixEpoch ≤ time := by
  obtain ⟨value, hwire, hsecs, hnanos⟩ := wireTime_of_requested hreq
  rw [hwire] at hreport
  unfold nextTime at hreport
  rw [Option.bind_some, filetime_of_wireTime hreq hwire] at hreport
  by_cases hepoch : unixEpoch ≤ time
  · refine iff_of_true ?_ hepoch
    have hle : 116444736000000000 ≤ time.toNat := UInt64.le_iff_toNat_le.mp hepoch
    rw [if_pos hepoch, Option.getD_some,
      stampTime_of_lt (show value.nanos.toNat < 10 ^ 9 by omega),
      systemTimeToWire_of_nonneg (show ¬ value.secs.toInt < 0 by omega)] at hreport
    dsimp only at hreport
    rw [Int64.ofInt_toInt, UInt32.ofNat_toNat, ← hwire, windowsTime_of_wireTime hreq] at hreport
    exact (Except.ok.inj hreport).symm
  · -- the old time is written back, or the clock's, and neither is reported before the epoch
    refine iff_of_false (fun heq => ?_) hepoch
    subst heq
    rw [if_neg hepoch, Option.getD_none, stampTime_currentTime hold hnow] at hreport
    have hback : ∀ back : Time, Proper back →
        windowsTimeFromWire (systemTimeToWire (some back)) = .ok result → False := by
      intro back hproper h
      by_cases hneg : back.secs < 0
      · have hnone : systemTimeToWire (some back) = none := if_pos hneg
        rw [hnone] at h
        cases h
        exact hreq.1 rfl
      · rw [systemTimeToWire_of_nonneg hneg] at h
        refine hepoch (unixEpoch_le ?_ h)
        show 0 ≤ (Int64.ofInt back.secs).toInt
        rw [Int64.toInt_ofInt_of_le hproper.lower hproper.upper]
        omega
    split at hreport
    · exact hback os.now hnow hreport
    · exact hback old hold hreport

open RpcServer in
/-- A time that is not asked for is kept, unless the current time is written back and lies
    before the epoch. -/
theorem kept_iff {time : UInt64} {old : Time} (hold : Proper old) (hnow : Proper os.now)
    (hreq : ¬ Requested time) :
    Fs.stampTime os old (nextTime os (wireTimeFromWindows time) old) = old ↔
      0 ≤ old.secs ∨ old = os.now := by
  rw [wireTime_of_not_requested hreq]
  show Fs.stampTime os old (currentTime os old) = old ↔ _
  rw [stampTime_currentTime hold hnow]
  by_cases hneg : old.secs < 0
  · rw [if_pos hneg]
    exact ⟨fun h => .inr h.symm, fun h => (h.resolve_left (by omega)).symm⟩
  · rw [if_neg hneg]
    exact iff_of_true rfl (.inl (by omega))

open RpcServer in
/-- Whether one of the two times is set as asked, or kept if it is not asked for. -/
theorem reported_iff {time result : UInt64} {old new : Time} {gives : Prop} [Decidable gives]
    (hold : Proper old) (hnow : Proper os.now) (hgives : Requested time → gives)
    (hnew : new = if gives then
      Fs.stampTime os old (nextTime os (wireTimeFromWindows time) old) else old)
    (hreport : windowsTimeFromWire (systemTimeToWire (some new)) = .ok result) :
    ((Requested time → result = time) ∧ (¬ Requested time → new = old)) ↔
      (Requested time → unixEpoch ≤ time) ∧
        (¬ Requested time → gives → 0 ≤ old.secs ∨ old = os.now) := by
  subst hnew
  by_cases hreq : Requested time
  · rw [if_pos (hgives hreq)] at hreport ⊢
    have hiff := reported_requested_iff hold hnow hreq hreport
    simp only [hreq, true_implies, not_true_eq_false, false_implies, and_true]
    exact hiff
  · simp only [hreq, false_implies, not_false_eq_true, true_implies, true_and]
    by_cases hg : gives
    · rw [if_pos hg]
      simp only [hg, true_implies]
      exact kept_iff hold hnow hreq
    · rw [if_neg hg]
      exact iff_of_true rfl fun h => absurd h hg

/-! ### The callback -/

/-- The update that the callback asks for. -/
def updateOf (fileAttributes : UInt32) (creationTime lastAccessTime lastWriteTime
    changeTime : UInt64) : BasicInfoUpdate where
  readonly       := readonlyUpdateFromAttributes fileAttributes
  creationTime   := wireTimeFromWindows creationTime
  lastAccessTime := wireTimeFromWindows lastAccessTime
  lastWriteTime  := wireTimeFromWindows lastWriteTime
  changeTime     := wireTimeFromWindows changeTime

variable {handle : Nat} {fileAttributes : UInt32}
  {creationTime lastAccessTime lastWriteTime changeTime : UInt64} {w w' : World Tree Buf}
  {info : FileInfo} {q : Loc} {e e' : Entry}

/-- Where a `SetBasicInfo` fits in a frame, a `Stat` of the same path does. -/
theorem fits_stat {path : String} {update : BasicInfoUpdate}
    (h : (Message.request (.setBasicInfo path update)).Fits) :
    (Message.request (.stat path)).Fits :=
  Message.fits_of_fields h (Postcard.Codec.length_put_fst_le _ _ path update)

/-- A call that succeeds changed the object its path leads to, and reports it. -/
theorem setBasicInfo_eq_ok (h : (fs.connected srv os).setBasicInfo handle fileAttributes
      creationTime lastAccessTime lastWriteTime changeTime w = .ok info w') :
    ∃ path q e e' t', w' = { w with net := t' } ∧
      srv.Existing w.net (w.contexts handle).path path q ∧ w.net.look q = some e ∧
      RpcServer.Updated os (updateOf fileAttributes creationTime lastAccessTime lastWriteTime
        changeTime) q e w.net t' e' ∧
      fillFileInfo (attrOf e') = .ok info ∧
      (Message.request (.stat (w.contexts handle).path)).Fits ∧
      (Message.result (.ok (.attr (attrOf e')))).Fits := by
  unfold RpcFsContext.setBasicInfo at h
  rw [bind_of_ok (pathOf_apply handle w)] at h
  obtain ⟨response, w₁, hsend, h⟩ := bind_eq_ok.mp h
  obtain ⟨t', rfl, hreq, hd, hres⟩ := sendDirect_eq_ok.mp hsend
  obtain ⟨attr, hset, rfl⟩ := map_eq_ok.mp hd
  obtain ⟨path, t₁, hpath, -⟩ := bind_eq_ok.mp hset
  obtain ⟨⟨q, hex⟩, rfl⟩ := RpcServer.resolveExisting_eq_ok.mp hpath
  obtain ⟨e, he, -⟩ := resolve_look hex.resolves
  obtain ⟨hinfo, rfl⟩ := checked_eq_ok.mp h
  rcases RpcServer.setBasicInfo_cases os hex he _ with
    ⟨-, -, err, hrun⟩ | ⟨-, e', t₂, hrun, hupdated⟩
  · rw [hrun] at hset
    cases hset
  · rw [hrun] at hset
    cases hset
    exact ⟨path, q, e, e', t', rfl, hex, he, hupdated, hinfo, fits_stat hreq, hres⟩

/-! ### What was asked, and nothing else -/

/-- Whether file attributes carry the read-only bit. -/
def ReadonlyBit (fileAttributes : UInt32) : Prop := fileAttributes &&& fileAttributeReadonly ≠ 0

/-- The call set what was asked and nothing else: the object at `q`, which was `e`, is
    reported with the times and the bit that were asked for, and everything else is as it
    was. -/
structure SetsAsked (fs : RpcFsContext Tree Buf) (srv : RpcServer) (handle : Nat)
    (fileAttributes : UInt32) (lastAccessTime lastWriteTime : UInt64) (w w' : World Tree Buf)
    (q : Loc) (e : Entry) : Prop where
  report : ∀ os, ∃ info, (fs.connected srv os).getFileInfo handle w' = .ok info w' ∧
    (Requested lastAccessTime → info.lastAccessTime = lastAccessTime) ∧
    (Requested lastWriteTime → info.lastWriteTime = lastWriteTime) ∧
    (ReadonlyBit info.fileAttributes ↔
      if fileAttributes = invalidFileAttributes then (attrOf e).readonly = true
      else ReadonlyBit fileAttributes)
  object : ∃ e', w'.net.look q = some e' ∧ e'.body = e.body ∧
    (¬ Requested lastAccessTime → e'.attr.atime = e.attr.atime) ∧
    (¬ Requested lastWriteTime → e'.attr.mtime = e.attr.mtime)
  others : SameBut q w.net w'.net

/-- No time that is asked for, or written back, lies before the epoch; the clock's own time
    may be written back for itself. -/
structure Settable (os : Os) (lastAccessTime lastWriteTime : UInt64) (e : Entry) : Prop where
  access     : Requested lastAccessTime → unixEpoch ≤ lastAccessTime
  write      : Requested lastWriteTime → unixEpoch ≤ lastWriteTime
  keptAccess : ¬ Requested lastAccessTime → Requested lastWriteTime →
    0 ≤ e.attr.atime.secs ∨ e.attr.atime = os.now
  keptWrite  : ¬ Requested lastWriteTime → Requested lastAccessTime →
    0 ≤ e.attr.mtime.secs ∨ e.attr.mtime = os.now

/-- A request gives a time where the callback was asked for one. -/
theorem givesTime_iff (fileAttributes : UInt32)
    (creationTime lastAccessTime lastWriteTime changeTime : UInt64) :
    RpcServer.GivesTime (updateOf fileAttributes creationTime lastAccessTime lastWriteTime
      changeTime) ↔ Requested lastAccessTime ∨ Requested lastWriteTime := by
  have hsome : ∀ time, (wireTimeFromWindows time).isSome = true ↔ Requested time := by
    intro time
    by_cases h : Requested time
    · obtain ⟨value, hwire, -⟩ := wireTime_of_requested h
      rw [hwire]
      exact iff_of_true rfl h
    · rw [wireTime_of_not_requested h]
      exact iff_of_false Bool.false_ne_true h
  exact or_congr (hsome lastAccessTime) (hsome lastWriteTime)

/-- The read-only bit of the object after the update. -/
theorem readonlyBit_updated {t t' : Tree} (hupdated : RpcServer.Updated os (updateOf fileAttributes
    creationTime lastAccessTime lastWriteTime changeTime) q e t t' e') :
    (attrOf e').readonly = true ↔ if fileAttributes = invalidFileAttributes
      then (attrOf e).readonly = true else ReadonlyBit fileAttributes := by
  have hperm := hupdated.perm
  rw [RpcServer.readonly_attrOf, hperm]
  show decide (RpcServer.nextPerm (readonlyUpdateFromAttributes fileAttributes) e &&& 0o222 = 0)
    = true
    ↔ _
  unfold readonlyUpdateFromAttributes
  split
  · rw [RpcServer.readonly_attrOf]
    rfl
  · rw [RpcServer.nextPerm_readonly]
    exact decide_eq_true_iff

/-- **`set_basic_info` sets what was asked and nothing else**, when it succeeds, exactly when
    no time involved lies before the epoch. -/
theorem setBasicInfo_exact_iff (fs : RpcFsContext Tree Buf) (srv : RpcServer) (os : Os)
    (handle : Nat) (fileAttributes : UInt32)
    (creationTime lastAccessTime lastWriteTime changeTime : UInt64) (w w' : World Tree Buf)
    (info : FileInfo) (ht : Timed w.net) (hnow : Proper os.now)
    (hok : (fs.connected srv os).setBasicInfo handle fileAttributes creationTime lastAccessTime
      lastWriteTime changeTime w = .ok info w') :
    ∃ path q e, srv.Existing w.net (w.contexts handle).path path q ∧ w.net.look q = some e ∧
      (SetsAsked fs srv handle fileAttributes lastAccessTime lastWriteTime w w' q e ↔
        Settable os lastAccessTime lastWriteTime e) := by
  obtain ⟨path, q, e, e', t', rfl, hex, he, hupdated, hinfo, hfits, hres⟩ := setBasicInfo_eq_ok hok
  refine ⟨path, q, e, hex, he, ?_⟩
  obtain ⟨hatime, hmtime⟩ := ht e (Tree.mem_of_look he)
  obtain ⟨haccess, hwrite, hattributes, -, -⟩ := fillFileInfo_eq_ok hinfo
  -- what is reported afterwards is what the call itself returned
  have hreport : ∀ os, (fs.connected srv os).getFileInfo handle { w with net := t' }
      = .ok info { w with net := t' } := by
    intro os
    have hl : Fs.Leads t' path q := ⟨hex.nul, by rw [resolve_congr hupdated.shape, hex.resolves]⟩
    have hstat : srv.statPath (w.contexts handle).path t' = .ok (attrOf e') t' := by
      have hex' : srv.Existing t' (w.contexts handle).path path q :=
        ⟨hex.joins, hex.nul, hl.2, hex.within⟩
      exact RpcServer.statPath_eq_ok.mpr ⟨⟨path, q, e', hex', hupdated.entry, rfl⟩, rfl⟩
    exact getFileInfo_eq_ok.mpr ⟨rfl, attrOf e', hfits, hstat, hres, hinfo⟩
  have hbit : ReadonlyBit info.fileAttributes ↔ if fileAttributes = invalidFileAttributes
      then (attrOf e).readonly = true else ReadonlyBit fileAttributes := by
    rw [hattributes]
    exact (readonly_fileAttributes _).trans (readonlyBit_updated hupdated)
  have hgives := givesTime_iff fileAttributes creationTime lastAccessTime lastWriteTime changeTime
  -- each of the two times on its own
  have hA := reported_iff hatime hnow (fun h => hgives.mpr (.inl h)) hupdated.atime haccess
  have hW := reported_iff hmtime hnow (fun h => hgives.mpr (.inr h)) hupdated.mtime hwrite
  constructor
  · intro h
    obtain ⟨info', hrun, hrepA, hrepW, -⟩ := h.report os
    rw [hreport os] at hrun
    cases hrun
    obtain ⟨e₁, he₁, -, hkeptA, hkeptW⟩ := h.object
    rw [hupdated.entry] at he₁
    cases he₁
    obtain ⟨haccess, hkeptaccess⟩ := hA.mp ⟨hrepA, hkeptA⟩
    obtain ⟨hwrite, hkeptwrite⟩ := hW.mp ⟨hrepW, hkeptW⟩
    exact ⟨haccess, hwrite, fun hno hreq => hkeptaccess hno (hgives.mpr (.inr hreq)),
      fun hno hreq => hkeptwrite hno (hgives.mpr (.inl hreq))⟩
  · intro h
    obtain ⟨hrepA, hkeptA⟩ := hA.mpr ⟨h.access, fun hno hg =>
      h.keptAccess hno ((hgives.mp hg).resolve_left hno)⟩
    obtain ⟨hrepW, hkeptW⟩ := hW.mpr ⟨h.write, fun hno hg =>
      h.keptWrite hno ((hgives.mp hg).resolve_right hno)⟩
    exact ⟨fun os => ⟨info, hreport os, hrepA, hrepW, hbit⟩,
      ⟨e', hupdated.entry, hupdated.body, hkeptA, hkeptW⟩, hupdated.others⟩

/-- What a call at second 1 reports of `f`. -/
def infoOfF (fileAttributes : UInt32) (lastWriteTime : UInt64) : FileInfo where
  fileAttributes
  reparseTag     := 0
  allocationSize := 3
  fileSize       := 3
  creationTime   := 0
  lastAccessTime := unixEpoch
  lastWriteTime
  changeTime     := unixEpoch + 10000000
  indexNumber    := 0
  hardLinks      := 0
  eaSize         := 0

/-- The call that asks for the first tick of 1601 succeeds, and the time is not set. -/
theorem early_time_dropped :
    ¬ ∀ info w', (plainFs.connected RpcServer.serverAtR (.atTime ⟨1, 0⟩)).setBasicInfo 0
        invalidFileAttributes 0 0 1 0 openOnFile = .ok info w' →
      ∃ info', (plainFs.connected RpcServer.serverAtR (.atTime ⟨1, 0⟩)).getFileInfo 0 w'
        = .ok info' w' ∧ info'.lastWriteTime = 1 := by
  intro hsets
  have hok : outcome ((plainFs.connected RpcServer.serverAtR (.atTime ⟨1, 0⟩)).setBasicInfo 0
      invalidFileAttributes 0 0 1 0 openOnFile) = .ok (infoOfF 32 unixEpoch) := by decide
  obtain ⟨info', hrun, hone⟩ := hsets _ _ (eq_ok_of_outcome hok)
  have hreport : outcome ((plainFs.connected RpcServer.serverAtR (.atTime ⟨1, 0⟩)).getFileInfo 0
      (final ((plainFs.connected RpcServer.serverAtR (.atTime ⟨1, 0⟩)).setBasicInfo 0
        invalidFileAttributes 0 0 1 0 openOnFile))) = .ok (infoOfF 32 unixEpoch) := by decide
  rw [hrun] at hreport
  cases hreport
  revert hone
  decide

/-- The file is made read-only and gets a last-write time in 1970. -/
theorem setBasicInfo_exact_f :
    ∃ path q e, RpcServer.serverAtR.Existing treeWithFile "f" path q ∧
      treeWithFile.look q = some e ∧
      (SetsAsked plainFs RpcServer.serverAtR 0 1 0 116444736050000000 openOnFile
        (final ((plainFs.connected RpcServer.serverAtR (.atTime ⟨1, 0⟩)).setBasicInfo 0 1 0 0
          116444736050000000 0 openOnFile)) q e ↔
        Settable (.atTime ⟨1, 0⟩) 0 116444736050000000 e) :=
  setBasicInfo_exact_iff plainFs RpcServer.serverAtR (.atTime ⟨1, 0⟩) 0 1 0 0 116444736050000000 0
    openOnFile _ (infoOfF 33 116444736050000000) (by decide) (by decide)
    (eq_ok_of_outcome (by decide))

end Netfilum
