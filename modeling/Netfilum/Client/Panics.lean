import Netfilum.Client.Disconnect
import Netfilum.Client.Times
import Netfilum.Rpc.Frame

namespace Netfilum

open Program Rust

/-!
# Answers that make a callback panic

Every callback should return `Ok` or `Err`, whatever it is answered.  Two places use an
answer unchecked: `read` copies the data into its buffer, and `fill_file_info` shifts the
times of the attributes by the epoch.

* `TimesFit` — no time of the attributes overflows the shift.
* `Breaks` — the callback gets such data, or converts such attributes.
* `panics_iff` — it panics exactly then; `returns_iff` — in other words, of every callback.
-/

variable {σ Buf : Type} {α β : Type}

/-- The callback ended in a panic. -/
def Stop.IsPanic : Stop → Prop
  | .panic _ => True
  | .err _   => False

/-- From `w`, the callback panics. -/
abbrev Panics (x : ClientM σ Buf α) (w : World σ Buf) : Prop := FailsWith Stop.IsPanic x w

/-- From `w`, the callback returns `Ok` or `Err`. -/
def Returns (x : ClientM σ Buf α) (w : World σ Buf) : Prop :=
  (∃ a w', x w = .ok a w') ∨ ∃ e w', x w = .error (.err e) w'

/-- A callback returns, or it panics. -/
theorem returns_iff_not_panics (x : ClientM σ Buf α) (w : World σ Buf) :
    Returns x w ↔ ¬ Panics x w := by
  unfold Returns Panics
  cases hx : x w with
  | ok a w' => exact iff_of_true (.inl ⟨a, w', rfl⟩) (failsWith_of_ok hx)
  | error stop w' =>
    rw [failsWith_of_error hx]
    cases stop with
    | err e => exact iff_of_true (.inr ⟨e, w', rfl⟩) id
    | panic message => exact iff_of_false (by rintro (⟨_, _, ⟨⟩⟩ | ⟨_, _, ⟨⟩⟩)) (· trivial)

/-- An error of WinFsp is no panic. -/
theorem mapError_err_panics (x : Except FspError α) :
    ¬ ∃ stop, x.mapError Stop.err = .error stop ∧ stop.IsPanic := by
  rintro ⟨stop, hstop, hpanic⟩
  cases x with
  | ok a => cases hstop
  | error e =>
    cases hstop
    exact hpanic

/-- A conversion that overflows is one. -/
theorem mapError_panic_panics (x : Checked α) :
    (∃ stop, x.mapError Stop.panic = .error stop ∧ stop.IsPanic) ↔
      ∃ message, x = .error message := by
  cases x with
  | ok a => exact iff_of_false (by rintro ⟨_, ⟨⟩, _⟩) (by rintro ⟨_, ⟨⟩⟩)
  | error message => exact iff_of_true ⟨_, rfl, trivial⟩ ⟨message, rfl⟩

/-! ### Attributes -/

/-- The shift by the epoch fits for every time of the attributes. -/
def TimesFit (attr : FileAttr) : Prop :=
  ∀ value, some value ∈ [attr.created, attr.accessed, attr.modified, attr.changed] →
    ShiftFits value

/-- A time can be told to Windows where its seconds can be shifted. -/
theorem windowsTime_ok_iff (time : Option FileTimeValue) :
    (∃ ticks, windowsTimeFromWire time = .ok ticks) ↔ ∀ value, time = some value →
      ShiftFits value := by
  cases time with
  | none => exact iff_of_true ⟨0, rfl⟩ (by rintro _ ⟨⟩)
  | some value =>
    by_cases hfits : ShiftFits value
    · refine iff_of_true ?_ (by rintro _ ⟨⟩; exact hfits)
      by_cases hearly : value.secs.toInt + 11644473600 < 0
      · exact ⟨0, windowsTime_early hearly⟩
      · obtain ⟨ticks, hok, -⟩ := windowsTime_fits (by omega) hfits
        exact ⟨ticks, hok⟩
    · refine iff_of_false ?_ fun h => hfits (h value rfl)
      rintro ⟨ticks, hok⟩
      rw [windowsTime_overflow hfits] at hok
      cases hok

/-- Attributes are converted exactly when their times fit. -/
theorem fillFileInfo_ok_iff (attr : FileAttr) :
    (∃ info, fillFileInfo attr = .ok info) ↔ TimesFit attr := by
  have hfour : (∃ info, fillFileInfo attr = .ok info) ↔
      (∃ ticks, windowsTimeFromWire attr.created = .ok ticks) ∧
      (∃ ticks, windowsTimeFromWire attr.accessed = .ok ticks) ∧
      (∃ ticks, windowsTimeFromWire attr.modified = .ok ticks) ∧
      ∃ ticks, windowsTimeFromWire (attr.changed.or attr.modified) = .ok ticks := by
    constructor
    · rintro ⟨info, h⟩
      obtain ⟨creation, hcreation, h1⟩ := except_bind_eq_ok.mp h
      obtain ⟨access, haccess, h2⟩ := except_bind_eq_ok.mp h1
      obtain ⟨write, hwrite, h3⟩ := except_bind_eq_ok.mp h2
      obtain ⟨change, hchange, -⟩ := except_bind_eq_ok.mp h3
      exact ⟨⟨creation, hcreation⟩, ⟨access, haccess⟩, ⟨write, hwrite⟩, change, hchange⟩
    · rintro ⟨⟨creation, hcreation⟩, ⟨access, haccess⟩, ⟨write, hwrite⟩, change, hchange⟩
      unfold fillFileInfo
      rw [hcreation, haccess, hwrite, hchange]
      exact ⟨_, rfl⟩
  rw [hfour, windowsTime_ok_iff, windowsTime_ok_iff, windowsTime_ok_iff, windowsTime_ok_iff]
  constructor
  · rintro ⟨hcreated, haccessed, hmodified, hchanged⟩ value hmem
    simp only [List.mem_cons, List.not_mem_nil, or_false] at hmem
    rcases hmem with h | h | h | h
    · exact hcreated value h.symm
    · exact haccessed value h.symm
    · exact hmodified value h.symm
    · exact hchanged value (by rw [← h]; rfl)
  · intro h
    refine ⟨fun value hv => h value ?_, fun value hv => h value ?_, fun value hv => h value ?_,
      fun value hv => ?_⟩
    · simp [hv]
    · simp [hv]
    · simp [hv]
    · -- the time of the last change is that of the last write if it is missing
      cases hc : attr.changed with
      | none => exact h value (by simp_all)
      | some changed => exact h value (by simp_all)

/-- Attributes cannot be told to Windows where one of their times does not fit. -/
theorem fillFileInfo_error_iff (attr : FileAttr) :
    (∃ message, fillFileInfo attr = .error message) ↔ ¬ TimesFit attr := by
  rw [← fillFileInfo_ok_iff]
  cases fillFileInfo attr <;> simp

/-- Telling attributes panics where one of their times does not fit. -/
@[simp] theorem panics_checked (attr : FileAttr) (w : World σ Buf) :
    Panics (checked (fillFileInfo attr) : ClientM σ Buf FileInfo) w ↔ ¬ TimesFit attr := by
  unfold checked Panics
  rw [failsWith_given, mapError_panic_panics, fillFileInfo_error_iff]

/-- Converting attributes panics or goes on. -/
@[simp] theorem panics_checked_pure (attr : FileAttr) (f : FileInfo → α) (w : World σ Buf) :
    Panics (do let info ← checked (fillFileInfo attr); pure (f info) : ClientM σ Buf α) w ↔
      ¬ TimesFit attr := by
  unfold Panics
  rw [failsWith_bind]
  simp

/-- A first step that never panics hands over to the rest. -/
theorem panics_bind {x : ClientM σ Buf α} {k : α → ClientM σ Buf β} {w : World σ Buf}
    (hx : ¬ Panics x w) :
    Panics (x >>= k) w ↔ ∃ a w', x w = .ok a w' ∧ Panics (k a) w' :=
  (failsWith_bind x k w).trans (or_iff_right hx)

/-- A last step that never panics leaves it to the first. -/
theorem panics_bind_last {x : ClientM σ Buf α} {k : α → ClientM σ Buf β} {w : World σ Buf}
    (hk : ∀ a w', ¬ Panics (k a) w') : Panics (x >>= k) w ↔ Panics x w := by
  refine (failsWith_bind x k w).trans (or_iff_left ?_)
  rintro ⟨a, w', -, h⟩
  exact hk a w' h

/-- Reading the path of a handle does not panic. -/
theorem panics_pathOf_bind (handle : Nat) (k : String → ClientM σ Buf α) (w : World σ Buf) :
    Panics (pathOf handle >>= k) w ↔ Panics (k (w.contexts handle).path) w := by
  unfold Panics FailsWith
  rw [bind_of_ok (pathOf_apply handle w)]

/-- Throwing an error does not panic. -/
theorem not_panics_throwIo (error : IoError) (w : World σ Buf) :
    ¬ Panics (throwIo error : ClientM σ Buf α) w := by
  unfold throwIo
  rw [Panics, failsWith_throw]
  exact id

namespace RpcFsContext

variable (fs : RpcFsContext σ Buf)

/-! ### Requests -/

/-- `send` returns this response, and leaves the transport in this state. -/
def Gets (net : σ) (request : Request) (response : Response) (net' : σ) : Prop :=
  send fs.exchange request net = .ok response net'

/-- A request is answered, or the callback ends with an error. -/
theorem sendDirect_cases (request : Request) (w : World σ Buf) :
    (∃ response net, fs.Gets w.net request response net ∧
      fs.sendDirect request w = .ok response { w with net }) ∨
    (¬ ∃ response net, fs.Gets w.net request response net) ∧
      ∃ e w', fs.sendDirect request w = .error (.err e) w' := by
  unfold Gets sendDirect
  cases send fs.exchange request w.net with
  | ok response net => exact .inl ⟨response, net, rfl, rfl⟩
  | error e net => exact .inr ⟨by rintro ⟨_, _, ⟨⟩⟩, _, _, rfl⟩

/-- A request is answered, or the callback ends with an error that was looked at. -/
theorem sendRequest_cases (request : Request) (w : World σ Buf) :
    (∃ response net, fs.Gets w.net request response net ∧
      fs.sendRequest request w = .ok response { w with net }) ∨
    (¬ ∃ response net, fs.Gets w.net request response net) ∧
      ∃ e w', fs.sendRequest request w = .error (.err e) w' := by
  unfold Gets sendRequest
  cases send fs.exchange request w.net with
  | ok response net => exact .inl ⟨response, net, rfl, rfl⟩
  | error e net => exact .inr ⟨by rintro ⟨_, _, ⟨⟩⟩, _, _, rfl⟩

/-- The response that a request gets is the only one. -/
theorem Gets.unique {net net' net'' : σ} {request : Request} {response response' : Response}
    (h : fs.Gets net request response net') (h' : fs.Gets net request response' net'') :
    response = response' ∧ net' = net'' := by
  unfold Gets at h h'
  rw [h] at h'
  cases h'
  exact ⟨rfl, rfl⟩

/-- What follows a request panics on the response; the request itself never does. -/
theorem panics_request_bind {x : ClientM σ Buf Response} {request : Request} {w : World σ Buf}
    (hx : (∃ response net, fs.Gets w.net request response net ∧ x w = .ok response { w with net }) ∨
      (¬ ∃ response net, fs.Gets w.net request response net) ∧ ∃ e w', x w = .error (.err e) w')
    (k : Response → ClientM σ Buf α) :
    Panics (x >>= k) w ↔ ∃ response net,
      fs.Gets w.net request response net ∧ Panics (k response) { w with net } := by
  rcases hx with ⟨response, net, hgets, hok⟩ | ⟨hnone, e, w', herr⟩
  · rw [panics_bind (failsWith_of_ok hok), hok]
    constructor
    · rintro ⟨_, _, ⟨⟩, h⟩
      exact ⟨response, net, hgets, h⟩
    · rintro ⟨response', net', hgets', h⟩
      obtain ⟨rfl, rfl⟩ := Gets.unique fs hgets hgets'
      exact ⟨response, _, rfl, h⟩
  · have hbind : (x >>= k) w = .error (.err e) w' := bind_of_error herr
    rw [Panics, failsWith_of_error hbind]
    refine iff_of_false id ?_
    rintro ⟨response, net, hgets, -⟩
    exact hnone ⟨response, net, hgets⟩

/-- What a callback does with an answer panics where some answer comes that makes it. -/
theorem panics_sendDirect_bind (request : Request) (k : Response → ClientM σ Buf α)
    (w : World σ Buf) :
    Panics (fs.sendDirect request >>= k) w ↔ ∃ response net,
      fs.Gets w.net request response net ∧ Panics (k response) { w with net } :=
  fs.panics_request_bind (fs.sendDirect_cases request w) k

/-- What a callback does with attributes panics where such attributes come. -/
theorem panics_fetchAttr_bind (path : String) (k : FileAttr → ClientM σ Buf α)
    (w : World σ Buf) :
    Panics (fs.fetchAttr path >>= k) w ↔ ∃ attr net,
      fs.Gets w.net (.stat path) (.attr attr) net ∧ Panics (k attr) { w with net } := by
  unfold fetchAttr
  rw [bind_assoc, fs.panics_request_bind (fs.sendRequest_cases (.stat path) w)]
  constructor
  · rintro ⟨response, net, hgets, h⟩
    cases response with
    | attr attr => exact ⟨attr, net, hgets, h⟩
    | dirEntries _ | data _ | writeResult _ _ | volumeInfo _ | empty =>
      exact ((failsWith_of_error rfl).mp h).elim
  · rintro ⟨attr, net, hgets, h⟩
    exact ⟨.attr attr, net, hgets, h⟩

/-- What a callback does with entries panics where such entries come. -/
theorem panics_fetchDirEntries_bind (path : String) (k : List DirEntry → ClientM σ Buf α)
    (w : World σ Buf) :
    Panics (fs.fetchDirEntries path >>= k) w ↔ ∃ entries net,
      fs.Gets w.net (.readDir path) (.dirEntries entries) net ∧
        Panics (k entries) { w with net } := by
  unfold fetchDirEntries
  rw [bind_assoc, fs.panics_request_bind (fs.sendRequest_cases (.readDir path) w)]
  constructor
  · rintro ⟨response, net, hgets, h⟩
    cases response with
    | dirEntries entries => exact ⟨entries, net, hgets, h⟩
    | attr _ | data _ | writeResult _ _ | volumeInfo _ | empty =>
      exact ((failsWith_of_error rfl).mp h).elim
  · rintro ⟨entries, net, hgets, h⟩
    exact ⟨.dirEntries entries, net, hgets, h⟩

/-! ### Filling a directory buffer -/

/-- Writing the entries, WinFsp takes those before one whose times do not fit, and the name
    of this one. -/
def Stumbles (buffer : Buf) : List DirEntry → Prop
  | []            => False
  | entry :: rest => fs.dirBuffers.setName entry.name = .ok () ∧
    (¬ TimesFit entry.attr ∨ ∃ info buffer', fillFileInfo entry.attr = .ok info ∧
      fs.dirBuffers.write buffer entry.name info = .ok buffer' ∧ Stumbles buffer' rest)

/-- Writing an entry panics where its name fits and its times do not. -/
theorem panics_writeDirEntry (entry : DirEntry) (buffer : Buf) :
    FailsWith Stop.IsPanic (fs.writeDirEntry entry) buffer ↔
      fs.dirBuffers.setName entry.name = .ok () ∧ ¬ TimesFit entry.attr := by
  unfold writeDirEntry
  simp only [failsWith_bind, failsWith_given, failsWith_attempt, mapError_err_panics,
    mapError_panic_panics, fillFileInfo_error_iff, given_eq_ok, except_mapError_eq_ok]
  constructor
  · rintro (h | ⟨_, _, ⟨hname, rfl⟩, h | ⟨_, _, _, h⟩⟩)
    · exact h.elim
    · exact ⟨hname, h⟩
    · exact h.elim
  · rintro ⟨hname, hlate⟩
    exact .inr ⟨(), buffer, ⟨hname, rfl⟩, .inl hlate⟩

/-- An entry is written where its name and its times fit and there is room. -/
theorem writeDirEntry_eq_ok {entry : DirEntry} {buffer buffer' : Buf} :
    fs.writeDirEntry entry buffer = .ok () buffer' ↔
      fs.dirBuffers.setName entry.name = .ok () ∧ ∃ info, fillFileInfo entry.attr = .ok info ∧
        fs.dirBuffers.write buffer entry.name info = .ok buffer' := by
  unfold writeDirEntry
  simp only [bind_eq_ok, given_eq_ok, except_mapError_eq_ok, attempt_eq_ok, except_map_eq_ok]
  constructor
  · rintro ⟨_, _, ⟨hname, rfl⟩, info, _, ⟨hinfo, rfl⟩, _, hwrite, ⟨⟩⟩
    exact ⟨hname, info, hinfo, hwrite⟩
  · rintro ⟨hname, info, hinfo, hwrite⟩
    exact ⟨(), buffer, ⟨hname, rfl⟩, info, buffer, ⟨hinfo, rfl⟩, buffer', hwrite, rfl⟩

/-- The loop over the entries panics where it stumbles. -/
theorem panics_writeDirEntries (entries : List DirEntry) (buffer : Buf) :
    FailsWith Stop.IsPanic (fs.writeDirEntries entries) buffer ↔ fs.Stumbles buffer entries := by
  induction entries generalizing buffer with
  | nil => exact failsWith_pure () buffer
  | cons entry rest ih =>
    unfold writeDirEntries Stumbles
    rw [failsWith_bind, panics_writeDirEntry]
    constructor
    · rintro (⟨hname, hlate⟩ | ⟨⟨⟩, buffer', hwritten, h⟩)
      · exact ⟨hname, .inl hlate⟩
      · obtain ⟨hname, info, hinfo, hwrite⟩ := fs.writeDirEntry_eq_ok.mp hwritten
        exact ⟨hname, .inr ⟨info, buffer', hinfo, hwrite, (ih buffer').mp h⟩⟩
    · rintro ⟨hname, hlate | ⟨info, buffer', hinfo, hwrite, h⟩⟩
      · exact .inl ⟨hname, hlate⟩
      · have hwritten := fs.writeDirEntry_eq_ok.mpr ⟨hname, info, hinfo, hwrite⟩
        exact .inr ⟨(), buffer', hwritten, (ih buffer').mpr h⟩

/-- The entries of a listing, with the two that every directory has. -/
def listed (attr : FileAttr) (entries : List DirEntry) : List DirEntry :=
  ⟨".", attr⟩ :: ⟨"..", attr⟩ :: entries

/-- Filling the buffer panics where it stumbles on an entry. -/
theorem panics_fillDirBuffer (handle : Nat) (restart : Bool) (attr : FileAttr)
    (entries : List DirEntry) (w : World σ Buf) :
    Panics (fs.fillDirBuffer handle restart attr entries) w ↔ restart = true ∧ ∃ buffer,
      fs.dirBuffers.acquire (w.contexts handle).dirBuffer restart
        (UInt32.ofNat (entries.length + 2)) = some buffer ∧
      fs.Stumbles buffer (listed attr entries) := by
  unfold fillDirBuffer Panics FailsWith
  dsimp only
  cases fs.dirBuffers.acquire (w.contexts handle).dirBuffer restart
      (UInt32.ofNat (entries.length + 2)) with
  | none => exact iff_of_false (by rintro ⟨_, _, ⟨⟩, -⟩) (by rintro ⟨-, _, ⟨⟩, -⟩)
  | some buffer =>
    cases restart with
    | false => exact iff_of_false (by rintro ⟨_, _, ⟨⟩, -⟩) (by rintro ⟨⟨⟩, -⟩)
    | true =>
      have hfilling : (do
          fs.writeSpecialDirEntry "." attr
          fs.writeSpecialDirEntry ".." attr
          fs.writeDirEntries entries) = fs.writeDirEntries (listed attr entries) := rfl
      have hfill := fs.panics_writeDirEntries (listed attr entries) buffer
      dsimp only
      rw [if_pos rfl, hfilling]
      cases hrun : fs.writeDirEntries (listed attr entries) buffer with
      | ok u buffer' =>
        refine iff_of_false (by rintro ⟨_, _, ⟨⟩, -⟩) ?_
        rintro ⟨-, _, ⟨⟩, h⟩
        exact failsWith_of_ok hrun (hfill.mpr h)
      | error stop buffer' =>
        rw [failsWith_of_error hrun] at hfill
        constructor
        · rintro ⟨_, _, ⟨⟩, h⟩
          exact ⟨rfl, buffer, rfl, hfill.mp h⟩
        · rintro ⟨-, _, ⟨⟩, h⟩
          exact ⟨stop, _, rfl, hfill.mpr h⟩

/-! ### The callbacks -/

/-- The answers that a callback does not survive: more data than its buffer holds, or times
    that do not fit in attributes that it converts. -/
def Breaks (w : World σ Buf) (cb : Callback) : Prop :=
  let path handle := (w.contexts handle).path
  match cb with
  | .openFile name => ∃ attr net,
    fs.Gets w.net (.stat (ntPathToRelative name)) (.attr attr) net ∧ ¬ TimesFit attr
  | .getFileInfo handle => ∃ attr net,
    fs.Gets w.net (.stat (path handle)) (.attr attr) net ∧ ¬ TimesFit attr
  | .flush (some handle) => ∃ response net attr net',
    fs.Gets w.net (.flush (some (path handle))) response net ∧
      fs.Gets net (.stat (path handle)) (.attr attr) net' ∧ ¬ TimesFit attr
  | .readDirectory handle marker _ => ∃ attr net entries net',
    fs.Gets w.net (.stat (path handle)) (.attr attr) net ∧
      fs.Gets net (.readDir (path handle)) (.dirEntries entries) net' ∧
      -- only a listing from the start fills the buffer
      marker.isNone = true ∧ ∃ buffer,
        fs.dirBuffers.acquire (w.contexts handle).dirBuffer true
          (UInt32.ofNat (entries.length + 2)) = some buffer ∧
        fs.Stumbles buffer (listed attr entries)
  | .create .. | .setBasicInfo .. | .setFileSize .. => ∃ request net,
    fs.direct cb w = some (request, net) ∧ ∃ attr net',
      fs.Gets net request (.attr attr) net' ∧ ¬ TimesFit attr
  | .write .. => ∃ request net,
    fs.direct cb w = some (request, net) ∧ ∃ written attr net',
      fs.Gets net request (.writeResult written attr) net' ∧ ¬ TimesFit attr
  | .read _ buffer _ => ∃ request net,
    fs.direct cb w = some (request, net) ∧ ∃ data net',
      fs.Gets net request (.data data) net' ∧ buffer.length < data.length
  -- these use nothing of an answer that could break them
  | .getSecurityByName .. | .cleanup .. | .flush none | .rename .. | .setDelete ..
  | .getVolumeInfo => False

/-- A direct request and what follows it, where only responses `mk i` can break it. -/
theorem panics_direct {ι : Type} (mk : ι → Response) (Bad : ι → Prop) {request : Request}
    {k : Response → ClientM σ Buf α} (w : World σ Buf)
    (hbad : ∀ i w', Panics (k (mk i)) w' ↔ Bad i)
    (hother : ∀ response w', (∀ i, response ≠ mk i) → ¬ Panics (k response) w') :
    Panics (fs.sendDirect request >>= k) w ↔ ∃ i net, fs.Gets w.net request (mk i) net ∧ Bad i := by
  rw [panics_sendDirect_bind]
  constructor
  · rintro ⟨response, net, hgets, h⟩
    by_cases hresponse : ∃ i, response = mk i
    · obtain ⟨i, rfl⟩ := hresponse
      exact ⟨i, net, hgets, (hbad i _).mp h⟩
    · exact (hother response _ (fun i heq => hresponse ⟨i, heq⟩) h).elim
  · rintro ⟨i, net, hgets, hi⟩
    exact ⟨mk i, net, hgets, (hbad i _).mpr hi⟩

/-- The answer to a `Write` is taken for a result of a write, or is an error. -/
theorem panics_writePayload (handle : Nat) (payload : List UInt8) (offset : UInt64)
    (toEof : Bool) (w : World σ Buf) :
    Panics (fs.writePayload handle payload offset toEof) w ↔ ∃ written attr net,
      fs.Gets w.net (.write (w.contexts handle).path offset payload toEof)
        (.writeResult written attr) net ∧ ¬ TimesFit attr := by
  unfold writePayload
  rw [panics_pathOf_bind, fs.panics_direct (fun p : UInt32 × FileAttr => .writeResult p.1 p.2)
    (fun p => ¬ TimesFit p.2) w (fun p w' => panics_checked_pure p.2 _ w')]
  · exact Prod.exists
  · intro response w' hne
    cases response with
    | writeResult written attr => exact (hne (written, attr) rfl).elim
    | _ => exact not_panics_throwIo _ w'

/-- Nothing that follows a request without panicking itself is broken by its answer. -/
theorem not_panics_direct {request : Request} {k : Response → ClientM σ Buf α} (w : World σ Buf)
    (hk : ∀ response w', ¬ Panics (k response) w') :
    ¬ Panics (fs.sendDirect request >>= k) w := by
  rw [panics_sendDirect_bind]
  rintro ⟨response, net, -, h⟩
  exact hk response _ h

/-- There is one request that is sent directly. -/
theorem exists_direct {cb : Callback} {w : World σ Buf} {request : Request} {net : σ}
    (h : fs.direct cb w = some (request, net)) (P : Request → σ → Prop) :
    (∃ request net, fs.direct cb w = some (request, net) ∧ P request net) ↔ P request net := by
  constructor
  · rintro ⟨request', net', h', hP⟩
    rw [h] at h'
    cases h'
    exact hP
  · intro hP
    exact ⟨request, net, h, hP⟩

/-- `read` panics where its answer breaks it. -/
theorem panics_read (handle : Nat) (buffer : List UInt8) (offset : UInt64) (w : World σ Buf) :
    Panics (fs.read handle buffer offset) w ↔ fs.Breaks w (.read handle buffer offset) := by
  refine Iff.trans ?_ (fs.exists_direct rfl _).symm
  refine (panics_pathOf_bind handle _ w).trans ?_
  refine fs.panics_direct .data (buffer.length < ·.length) w ?_ ?_
  · -- the data is copied into a slice of the buffer as long as it is
    intro data w'
    dsimp only
    by_cases hlong : buffer.length < data.length
    · rw [if_pos hlong]
      exact iff_of_true ((failsWith_throw _ w').mpr trivial) hlong
    · rw [if_neg hlong]
      exact iff_of_false (failsWith_of_ok rfl) hlong
  · intro response w' hne
    cases response with
    | data data => exact (hne data rfl).elim
    | _ => exact not_panics_throwIo _ w'

/-- `flush` panics where its answer breaks it. -/
theorem panics_flush (handle : Nat) (w : World σ Buf) :
    Panics (fs.flush (some handle)) w ↔ fs.Breaks w (.flush (some handle)) := by
  refine (panics_pathOf_bind handle _ w).trans ((fs.panics_sendDirect_bind _ _ w).trans ?_)
  refine exists_congr fun response => exists_congr fun net => ?_
  rw [panics_pathOf_bind, panics_fetchAttr_bind]
  simp only [panics_checked_pure]
  constructor
  · rintro ⟨hflush, attr, net', hgets, hlate⟩
    exact ⟨attr, net', hflush, hgets, hlate⟩
  · rintro ⟨attr, net', hflush, hgets, hlate⟩
    exact ⟨hflush, attr, net', hgets, hlate⟩

/-- `read_directory` panics where its answers break it. -/
theorem panics_readDirectory (handle : Nat) (marker : Option (List UInt16)) (buffer : List UInt8)
    (w : World σ Buf) :
    Panics (fs.readDirectory handle marker buffer) w ↔
      fs.Breaks w (.readDirectory handle marker buffer) := by
  refine (panics_pathOf_bind handle _ w).trans ((fs.panics_fetchAttr_bind _ _ w).trans ?_)
  refine exists_congr fun attr => exists_congr fun net => ?_
  rw [panics_fetchDirEntries_bind]
  -- reading the buffer of the handle comes last
  have hlast : ∀ entries w', Panics (do
      fs.fillDirBuffer handle marker.isNone attr entries
      fun w => .ok (fs.dirBuffers.read (w.contexts handle).dirBuffer marker buffer) w) w' ↔
      Panics (fs.fillDirBuffer handle marker.isNone attr entries) w' :=
    fun entries w' => panics_bind_last fun _ _ => failsWith_of_ok rfl
  simp only [hlast, panics_fillDirBuffer]
  constructor
  · rintro ⟨hstat, entries, net', hlist, hstart, dirBuffer, hacquire, h⟩
    rw [hstart] at hacquire
    exact ⟨entries, net', hstat, hlist, hstart, dirBuffer, hacquire, h⟩
  · rintro ⟨entries, net', hstat, hlist, hstart, dirBuffer, hacquire, h⟩
    rw [← hstart] at hacquire
    exact ⟨hstat, entries, net', hlist, hstart, dirBuffer, hacquire, h⟩

/-- A constrained write sends a request where the file reaches beyond its offset. -/
theorem direct_constrained {handle : Nat} {buffer : List UInt8} {offset : UInt64} {toEof : Bool}
    {w : World σ Buf} {request : Request} {net : σ} :
    fs.direct (.write handle buffer offset toEof true) w = some (request, net) ↔
      ∃ attr, fs.Gets w.net (.stat (w.contexts handle).path) (.attr attr) net ∧
        ¬ attr.size ≤ offset ∧ request = .write (w.contexts handle).path offset
          (buffer.take (attr.size - offset).toNat) toEof := by
  unfold direct Gets
  dsimp only
  rw [if_pos rfl]
  cases send fs.exchange (.stat (w.contexts handle).path) w.net with
  | error e net => exact iff_of_false (by rintro ⟨⟩) (by rintro ⟨_, ⟨⟩, -⟩)
  | ok response net =>
    cases response with
    | attr attr =>
      dsimp only
      by_cases hsize : attr.size ≤ offset
      · rw [if_pos hsize]
        refine iff_of_false (by rintro ⟨⟩) ?_
        rintro ⟨_, ⟨⟩, hno, -⟩
        exact hno hsize
      · rw [if_neg hsize]
        constructor
        · rintro ⟨⟩
          exact ⟨attr, rfl, hsize, rfl⟩
        · rintro ⟨_, ⟨⟩, -, rfl⟩
          rfl
    | _ => exact iff_of_false (by rintro ⟨⟩) (by rintro ⟨_, ⟨⟩, -⟩)

/-- With constrained I/O, the attributes that give the size are not converted. -/
theorem panics_constrained (handle : Nat) (buffer : List UInt8) (offset : UInt64) (toEof : Bool)
    (w : World σ Buf) :
    Panics (fs.write handle buffer offset toEof true) w ↔
      fs.Breaks w (.write handle buffer offset toEof true) := by
  have hpanics : Panics (fs.write handle buffer offset toEof true) w ↔ ∃ attr net,
      fs.Gets w.net (.stat (w.contexts handle).path) (.attr attr) net ∧ ¬ attr.size ≤ offset ∧
        Panics (fs.writePayload handle (buffer.take (attr.size - offset).toNat) offset toEof)
          { w with net } := by
    refine (panics_pathOf_bind handle _ w).trans ((fs.panics_fetchAttr_bind _ _ w).trans ?_)
    refine exists_congr fun attr => exists_congr fun net => and_congr_right fun _ => ?_
    by_cases hsize : attr.size ≤ offset
    · rw [if_pos hsize]
      exact iff_of_false (failsWith_of_ok rfl) fun h => h.1 hsize
    · rw [if_neg hsize]
      exact (and_iff_right hsize).symm
  rw [hpanics]
  constructor
  · rintro ⟨attr, net, hstat, hsize, h⟩
    exact ⟨_, net, fs.direct_constrained.mpr ⟨attr, hstat, hsize, rfl⟩,
      (fs.panics_writePayload handle _ offset toEof _).mp h⟩
  · rintro ⟨request, net, hdirect, h⟩
    obtain ⟨attr, hstat, hsize, rfl⟩ := fs.direct_constrained.mp hdirect
    exact ⟨attr, net, hstat, hsize, (fs.panics_writePayload handle _ offset toEof _).mpr h⟩

/-- **A callback panics exactly on the answers that break it.** -/
theorem panics_iff (cb : Callback) (w : World σ Buf) : Panics (fs.run cb) w ↔ fs.Breaks w cb := by
  cases cb with
  | getSecurityByName name descriptor reparse =>
    refine (failsWith_map _ _ w).trans (iff_of_false ?_ id)
    cases reparse with
    | some security => exact failsWith_of_ok rfl
    | none =>
      refine mt (fs.panics_fetchAttr_bind _ _ w).mp ?_
      rintro ⟨attr, net, -, h⟩
      exact (failsWith_pure _ _).mp h
  | openFile name =>
    refine (failsWith_map _ _ w).trans ((fs.panics_fetchAttr_bind _ _ w).trans ?_)
    simp only [panics_checked_pure]
    rfl
  | getFileInfo handle =>
    refine (failsWith_map _ _ w).trans ((panics_pathOf_bind handle _ w).trans ?_)
    refine (fs.panics_fetchAttr_bind _ _ w).trans ?_
    simp only [panics_checked]
    rfl
  | create name options attributes size =>
    refine Iff.trans ?_ (fs.exists_direct rfl _).symm
    refine (failsWith_map _ _ w).trans ?_
    refine fs.panics_direct .attr (¬ TimesFit ·) w (fun attr w' => panics_checked_pure attr _ w') ?_
    intro response w' hne
    cases response with
    | attr attr => exact (hne attr rfl).elim
    | _ => exact not_panics_throwIo _ w'
  | cleanup handle flags =>
    refine iff_of_false ?_ id
    by_cases hdel : shouldDelete (w.contexts handle) flags = true
    · exact failsWith_of_ok (if_pos hdel)
    · exact failsWith_of_ok (if_neg hdel)
  | flush handle =>
    refine (failsWith_map _ _ w).trans ?_
    cases handle with
    | some handle => exact fs.panics_flush handle w
    | none => exact iff_of_false (fs.not_panics_direct w fun _ w' => failsWith_of_ok rfl) id
  | readDirectory handle marker buffer =>
    exact (failsWith_map _ _ w).trans (fs.panics_readDirectory handle marker buffer w)
  | rename handle name replace =>
    refine iff_of_false ?_ id
    refine mt (panics_pathOf_bind handle _ w).mp ?_
    exact fs.not_panics_direct w fun _ w' => failsWith_of_ok rfl
  | setBasicInfo handle attributes created accessed written changed =>
    refine Iff.trans ?_ (fs.exists_direct rfl _).symm
    refine (failsWith_map _ _ w).trans ((panics_pathOf_bind handle _ w).trans ?_)
    refine fs.panics_direct .attr (¬ TimesFit ·) w (fun attr w' => panics_checked attr w') ?_
    intro response w' hne
    cases response with
    | attr attr => exact (hne attr rfl).elim
    | _ => exact not_panics_throwIo _ w'
  | setDelete handle delete =>
    refine iff_of_false ?_ id
    cases delete with
    | false => exact failsWith_of_ok rfl
    | true => exact fs.not_panics_direct w fun _ w' => failsWith_of_ok rfl
  | setFileSize handle size allocation =>
    refine Iff.trans ?_ (fs.exists_direct rfl _).symm
    refine (failsWith_map _ _ w).trans ((panics_pathOf_bind handle _ w).trans ?_)
    refine fs.panics_direct .attr (¬ TimesFit ·) w (fun attr w' => panics_checked attr w') ?_
    intro response w' hne
    cases response with
    | attr attr => exact (hne attr rfl).elim
    | _ => exact not_panics_throwIo _ w'
  | read handle buffer offset =>
    exact (failsWith_map _ _ w).trans (fs.panics_read handle buffer offset w)
  | write handle buffer offset toEof constrained =>
    refine (failsWith_map _ _ w).trans ?_
    cases constrained with
    | true => exact fs.panics_constrained handle buffer offset toEof w
    | false =>
      refine Iff.trans ?_ (fs.exists_direct rfl _).symm
      exact fs.panics_writePayload handle buffer offset toEof w
  | getVolumeInfo =>
    refine (failsWith_map _ _ w).trans (iff_of_false ?_ id)
    refine fs.not_panics_direct w fun response w' => ?_
    cases response with
    | volumeInfo info => exact failsWith_of_ok rfl
    | _ => exact not_panics_throwIo _ w'

/-- **No answer makes a callback panic** exactly where none breaks it: for every callback,
    every transport and every state, it returns `Ok` or `Err` unless it is answered with more
    data than its buffer holds, or converts attributes with a time that does not fit. -/
theorem returns_iff (fs : RpcFsContext σ Buf) :
    (∀ cb w, Returns (fs.run cb) w ↔ ¬ fs.Breaks w cb) ∧
      (∀ descriptor w, Returns (fs.getSecurity descriptor : ClientM σ Buf _) w) ∧
      ∀ w, Returns (setSecurity : ClientM σ Buf Unit) w :=
  ⟨fun cb w => (returns_iff_not_panics _ w).trans (not_congr (fs.panics_iff cb w)),
    fun _ w => .inl ⟨_, w, rfl⟩, fun w => .inr ⟨_, w, rfl⟩⟩

end RpcFsContext

/-! ### Two frames that make a callback panic -/

/-- A mount whose answers are read from the bytes that were received. -/
def receiving (cipher : RpcCipher) : RpcFsContext (List UInt8) Unit where
  exchange := fun _ => readMessage cipher RpcResult.codec
  dirBuffers := refused.dirBuffers
  securityDescriptor := []
  volumeLabel := ""

/-- The mount with these bytes to read, and an open file. -/
def received (bytes : List UInt8) : World (List UInt8) Unit where
  net := bytes
  mountState := {}
  contexts := fun _ => ⟨"a.txt", .file, (), false⟩

/-- AES-256-GCM on the bytes of two bytes of data, under a key and a nonce of zeros. -/
def longDataCipher : RpcCipher where
  aead := .recorded [⟨nonceEnding 0, [0, 2, 2, 7, 8],
    [206, 165, 66, 58, 69, 254, 221, 234, 81, 131, 133, 74, 103, 124, 216, 47, 134, 112, 2, 227,
      213], rfl⟩]
  key := zeroKey

/-- The frame of two bytes of data. -/
def longDataFrame : List UInt8 :=
  [33, 0, 0, 0, 0, 0, 0, 0, 0, 0, 0, 0, 0, 0, 0, 0, 206, 165, 66, 58, 69, 254, 221, 234, 81, 131,
    133, 74, 103, 124, 216, 47, 134, 112, 2, 227, 213]

/-- An empty file that was modified in the last second of `i64`. -/
def lateAttr : FileAttr where
  kind          := .file
  size          := 0
  allocatedSize := 0
  created       := none
  accessed      := none
  modified      := some ⟨9223372036854775807, 0⟩
  changed       := none
  readonly      := false
  mode          := none

/-- AES-256-GCM on the bytes of these attributes. -/
def lateAttrCipher : RpcCipher where
  aead := .recorded [⟨nonceEnding 0,
    [0, 0, 0, 0, 0, 0, 0, 1, 254, 255, 255, 255, 255, 255, 255, 255, 255, 1, 0, 0, 0, 0],
    [206, 167, 64, 61, 77, 96, 107, 111, 249, 177, 58, 44, 69, 12, 98, 231, 141, 97, 3, 202, 55,
      166, 42, 187, 112, 176, 172, 195, 155, 184, 140, 195, 13, 128, 189, 64, 174, 44], rfl⟩]
  key := zeroKey

/-- The frame of these attributes. -/
def lateAttrFrame : List UInt8 :=
  [50, 0, 0, 0, 0, 0, 0, 0, 0, 0, 0, 0, 0, 0, 0, 0, 206, 167, 64, 61, 77, 96, 107, 111, 249, 177,
    58, 44, 69, 12, 98, 231, 141, 97, 3, 202, 55, 166, 42, 187, 112, 176, 172, 195, 155, 184, 140,
    195, 13, 128, 189, 64, 174, 44]

/-- Both answers can be received, and neither is survived: two bytes of data by a `read` into
    one, and the late attributes by a `get_file_info`. -/
theorem long_data_and_late_time_panic :
    readMessage longDataCipher RpcResult.codec longDataFrame = .ok (.ok (.data [7, 8])) [] ∧
      ¬ Returns ((receiving longDataCipher).run (.read 0 [0] 0)) (received longDataFrame) ∧
    readMessage lateAttrCipher RpcResult.codec lateAttrFrame = .ok (.ok (.attr lateAttr)) [] ∧
      ¬ Returns ((receiving lateAttrCipher).run (.getFileInfo 0)) (received lateAttrFrame) := by
  refine ⟨rfl, ?_, rfl, ?_⟩
  · rintro (⟨_, _, ⟨⟩⟩ | ⟨_, _, ⟨⟩⟩)
  · rintro (⟨_, _, ⟨⟩⟩ | ⟨_, _, ⟨⟩⟩)

end Netfilum
