import Netfilum.Rpc.Frame
import Netfilum.Server.Resolve

namespace Netfilum

open Crypto Postcard Program Rust

/-!
# Frames sent back

Requests and results travel under one key in one format, and nothing in a frame says which
of the two it holds.  What a reader of one type makes of a frame of the other:

* `request_of_result` — a result is read as a `Stat` or an `Open`, or not at all.
* `result_of_request` — a request is read as an error or not at all, except for `Stat`, the
  length of whose path is taken for the index of a response.
* `reflected_frames` — both for the frames.
-/

/-! ### A result read as a request -/

/-- The index of the two variants of a result is the one of `Stat` or `Open`. -/
theorem request_of_result {result : RpcResult Response} {request : Request}
    {rest rest' : List UInt8}
    (h : Request.codec.take (RpcResult.codec.put result ++ rest) = .ok (request, rest')) :
    ∃ path, request = .stat path ∨ request = .open path := by
  have hindex : ∀ (i : UInt32) (fields : List UInt8), i = 0 ∨ i = 1 →
      Request.codec.take (Codec.u32.put i ++ fields ++ rest)
        = Request.variant i (fields ++ rest) := by
    rintro i fields (rfl | rfl) <;> rfl
  cases result with
  | ok response =>
    have heq := hindex 0 (Response.codec.put response) (.inl rfl)
    obtain ⟨path, -, rfl⟩ := map_eq_ok.mp (heq.symm.trans h :
      (Request.stat <$> Codec.string.take) _ = _)
    exact ⟨path, .inl rfl⟩
  | error error =>
    have heq := hindex 1 (RpcError.codec.put error) (.inr rfl)
    obtain ⟨path, -, rfl⟩ := map_eq_ok.mp (heq.symm.trans h :
      (Request.open <$> Codec.string.take) _ = _)
    exact ⟨path, .inr rfl⟩

/-- Neither of the two changes the tree. -/
theorem final_dispatch_stat (srv : RpcServer) (os : Posix.Os) (t : Posix.Tree) {request : Request}
    {path : String} (h : request = .stat path ∨ request = .open path) :
    final (srv.dispatch os request t) = t := by
  rcases h with rfl | rfl
  · exact RpcServer.quiet_statPath.map t
  · exact RpcServer.quiet_statPath.map t

/-! ### A request read as a result -/

/-- A path as the fields of a response: its length in bytes is the index of the variant. -/
def responseOfPath (path : String) : Decoder Response := fun rest =>
  Response.variant (UInt32.ofNat (Utf8.encode path).length) (Utf8.encode path ++ rest)

/-- There are six variants. -/
theorem length_lt_of_responseOfPath {path : String} {response : Response} {rest rest' : List UInt8}
    (hlen : (Utf8.encode path).length < 2 ^ 32)
    (h : responseOfPath path rest = .ok (response, rest')) : (Utf8.encode path).length < 6 := by
  have hne : ∀ i : UInt32, i.toNat < 6 → 6 ≤ (Utf8.encode path).length →
      UInt32.ofNat (Utf8.encode path).length ≠ i := by
    rintro i hi hge rfl
    rw [UInt32.toNat_ofNat_of_lt' hlen] at hi
    omega
  by_contra hge
  have hge := Nat.le_of_not_lt hge
  unfold responseOfPath Response.variant at h
  rw [if_neg (hne 0 (by decide) hge), if_neg (hne 1 (by decide) hge),
    if_neg (hne 2 (by decide) hge), if_neg (hne 3 (by decide) hge),
    if_neg (hne 4 (by decide) hge), if_neg (hne 5 (by decide) hge)] at h
  cases h

/-- What a response is read as when the bytes are those of a path. -/
theorem take_response_string {path : String} {response : Response} {rest rest' : List UInt8}
    (hlen : (Utf8.encode path).length < 2 ^ 32) :
    Response.codec.take (Codec.string.put path ++ rest) = .ok (response, rest') ↔
      responseOfPath path rest = .ok (response, rest') := by
  have hn : (UInt64.ofNat (Utf8.encode path).length).toNat = (Utf8.encode path).length :=
    UInt64.toNat_ofNat_of_lt' (Nat.lt_trans hlen (by decide))
  have hput : Codec.string.put path ++ rest
      = putVarint 10 (Utf8.encode path).length ++ (Utf8.encode path ++ rest) := by
    show putVarint 10 (UInt64.ofNat _).toNat ++ _ ++ _ = _
    rw [hn, List.append_assoc]
  rw [hput]
  constructor
  · intro h
    obtain ⟨i, s, hi, hv⟩ := bind_eq_ok.mp h
    obtain ⟨n, hread, rfl⟩ := map_eq_ok.mp hi
    obtain ⟨rfl, rfl⟩ := eq_of_takeVarint (by omega) hread
    exact hv
  · intro h
    -- a variant was read, so the length is a small number and has one byte
    have hsmall := length_lt_of_responseOfPath hlen h
    have hone : putVarint 10 (Utf8.encode path).length = Codec.u32.put
        (UInt32.ofNat (Utf8.encode path).length) := by
      show _ = putVarint 5 _
      rw [UInt32.toNat_ofNat_of_lt' hlen, putVarint, if_pos (by omega), putVarint,
        if_pos (by omega)]
    rw [hone]
    exact (run_bind (Codec.u32.take_put _ _ (by
      rw [← hone, putVarint, if_pos (by omega)]; simp))).trans h

/-- The path of a `Stat` is shorter than its encoding. -/
theorem length_path_le (path : String) :
    (Utf8.encode path).length ≤ (Request.codec.put (.stat path)).length := by
  show _ ≤ (Codec.u32.put 0 ++ (Codec.length.put _ ++ Utf8.encode path)).length
  rw [List.length_append, List.length_append]
  omega

/-- Only a `Stat` is read as a response. -/
theorem result_of_request {request : Request} {response : Response} {rest rest' : List UInt8}
    (hlen : (Request.codec.put request).length < 2 ^ 32) :
    RpcResult.codec.take (Request.codec.put request ++ rest) = .ok (.ok response, rest') ↔
      ∃ path, request = .stat path ∧ responseOfPath path rest = .ok (response, rest') := by
  have hput : Request.codec.put request ++ rest
      = Codec.u32.put request.index ++ (request.fields ++ rest) := List.append_assoc _ _ _
  have htake : RpcResult.codec.take (Request.codec.put request ++ rest) = (if request.index = 0
      then Except.ok <$> Response.codec.take else if request.index = 1
      then Except.error <$> RpcError.codec.take else throw .custom) (request.fields ++ rest) := by
    rw [hput]
    refine run_bind (Codec.u32.take_put _ _ ?_)
    have : (Codec.u32.put request.index ++ request.fields).length < 2 ^ 32 := hlen
    rw [List.length_append] at this
    omega
  rw [htake]
  constructor
  · intro h
    cases request with
    | stat path =>
      obtain ⟨response', hresponse, heq⟩ := map_eq_ok.mp h
      cases heq
      refine ⟨path, rfl, (take_response_string ?_).mp hresponse⟩
      exact Nat.lt_of_le_of_lt (length_path_le path) hlen
    -- read as an error of the server, which is no response
    | «open» path =>
      obtain ⟨error, -, heq⟩ := map_eq_ok.mp h
      cases heq
    -- no variant of a result has such an index
    | _ => cases h
  · rintro ⟨path, rfl, hpath⟩
    exact run_map ((take_response_string
      (Nat.lt_of_le_of_lt (length_path_le path) hlen)).mpr hpath)

/-! ### The frames -/

/-- **Frames sent back.**  Under every key, the frame of a result is read as a request only if
    this changes nothing; the frame of a request is read as a response only if it is a `Stat`,
    exactly when the path has the form of a response whose index is the length of the path,
    so never for paths of more than five bytes and always for those of five. -/
theorem reflected_frames (cipher : RpcCipher) :
    (∀ (nonce : Nonce) (result : RpcResult Response) (bytes rest rest' : List UInt8)
        (request : Request), frame cipher RpcResult.codec nonce result = .ok bytes →
      readMessage cipher Request.codec (bytes ++ rest) = .ok request rest' →
        (∃ path, request = .stat path ∨ request = .open path) ∧
          ∀ srv os t, final (RpcServer.dispatch srv os request t) = t)
    ∧ (∀ (nonce : Nonce) (request : Request) (bytes rest : List UInt8) (response : Response),
      frame cipher Request.codec nonce request = .ok bytes →
        (readMessage cipher RpcResult.codec (bytes ++ rest) = .ok (.ok response) rest ↔
          ∃ path rest', request = .stat path ∧ responseOfPath path [] = .ok (response, rest')))
    ∧ (∀ path, 5 < (Utf8.encode path).length → (Utf8.encode path).length < 2 ^ 32 →
      ∀ response rest', responseOfPath path [] ≠ .ok (response, rest'))
    ∧ ∀ path, (Utf8.encode path).length = 5 →
      responseOfPath path [] = .ok (.empty, Utf8.encode path) := by
  refine ⟨?_, ?_, ?_, ?_⟩
  · -- a result, read as a request
    intro nonce result bytes rest rest' request hframe hread
    obtain ⟨⟨left, htake⟩, -⟩ := (readMessage_at_eq_ok cipher _ hframe).mp hread
    rw [← List.append_nil (RpcResult.codec.put result)] at htake
    obtain ⟨path, hpath⟩ := request_of_result htake
    exact ⟨⟨path, hpath⟩, fun srv os t => final_dispatch_stat srv os t hpath⟩
  · -- a request, read as a result
    intro nonce request bytes rest response hframe
    have hfits := (frame_ok_iff cipher Request.codec nonce request).mp ⟨bytes, hframe⟩
    rw [readMessage_at_eq_ok cipher Request.codec hframe,
      ← List.append_nil (Request.codec.put request)]
    constructor
    · rintro ⟨⟨left, htake⟩, -⟩
      obtain ⟨path, rfl, hpath⟩ := (result_of_request (by omega)).mp htake
      exact ⟨path, left, rfl, hpath⟩
    · rintro ⟨path, left, rfl, hpath⟩
      exact ⟨⟨left, (result_of_request (by omega)).mpr ⟨path, rfl, hpath⟩⟩, rfl⟩
  · intro path hlong hlen response rest' h
    exact absurd (length_lt_of_responseOfPath hlen h) (Nat.not_lt_of_le hlong)
  · -- the sixth variant has no fields, so whatever follows is ignored
    intro path hfive
    unfold responseOfPath
    rw [hfive, List.append_nil]
    rfl

/-- AES-256-GCM on the bytes of `Stat "a/b/c"`, under a key and a nonce of zeros. -/
def nestedStatCipher : RpcCipher where
  aead := .recorded [⟨nonceEnding 0, [0, 5, 97, 47, 98, 47, 99],
    [206, 162, 33, 18, 47, 79, 8, 177, 81, 201, 190, 29, 242, 135, 182, 143, 253, 13, 175, 145,
      115, 197, 60], rfl⟩]
  key := zeroKey

/-- The frame of `Stat "a/b/c"`. -/
def nestedStatFrame : List UInt8 :=
  [35, 0, 0, 0, 0, 0, 0, 0, 0, 0, 0, 0, 0, 0, 0, 0, 206, 162, 33, 18, 47, 79, 8, 177, 81, 201,
    190, 29, 242, 135, 182, 143, 253, 13, 175, 145, 115, 197, 60]

/-- A `Stat` with a path of five bytes, sent back, is the answer `Ok(Empty)`. -/
theorem stat_reflected :
    frame nestedStatCipher Request.codec ⟨List.replicate 12 0, rfl⟩ (.stat "a/b/c")
        = .ok nestedStatFrame ∧
      readMessage nestedStatCipher RpcResult.codec nestedStatFrame = .ok (.ok .empty) [] :=
  ⟨rfl, rfl⟩

/-- A path of five bytes makes the answer `Ok(Empty)`. -/
theorem reflected_frames_nested : ∃ path rest',
    Request.stat "a/b/c" = .stat path ∧ responseOfPath path [] = .ok (.empty, rest') :=
  ((reflected_frames nestedStatCipher).2.1 ⟨List.replicate 12 0, rfl⟩ (.stat "a/b/c")
    nestedStatFrame [] .empty rfl).mp rfl

end Netfilum
