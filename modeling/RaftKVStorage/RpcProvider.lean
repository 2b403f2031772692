import RaftKVStorage.Proto
import RaftKVStorage.Theory.Framing
import RaftKVStorage.Theory.ProtoWire
import Mathlib.Tactic.SplitIfs

set_option autoImplicit false

/-! # Requests on the wire

What `mprpcChannel::CallMethod` sends for a request, and what `rpcProvider::_M_onMessage` makes of the
bytes of one delivery. The protobuf library reads and writes the header; `Protobuf` lists what the
code relies on, and `Protobuf.wire` is an implementation of the wire format. -/

namespace RaftKVStorage

/-- `rpc::rpcHeader`. -/
structure RpcHeader where
  serviceName : Bytes := []
  methodName : Bytes := []
  argsSize : ℕ := 0
deriving DecidableEq, Repr

/-- `CodedOutputStream::WriteVarint32`, `CodedInputStream::ReadVarint32`, and the serialization of
    `rpcHeader`. What was written is read back; default fields take no bytes; nothing is read from
    fewer bytes than are written for it; `args_size` is a `uint32`. -/
structure Protobuf where
  writeVarint : ℕ → Bytes
  readVarint : Bytes → Option (ℕ × Bytes)
  serialize : RpcHeader → Bytes
  parse : Bytes → Option RpcHeader
  readVarint_write : ∀ k rest, k < 2 ^ 32 → readVarint (writeVarint k ++ rest) = some (k, rest)
  parse_serialize : ∀ h : RpcHeader, h.argsSize < 2 ^ 32 → (serialize h).length < 2 ^ 31 →
    parse (serialize h) = some h
  serialize_default : serialize {} = []
  length_readVarint : ∀ bytes k rest, readVarint bytes = some (k, rest) →
    (writeVarint k).length + rest.length ≤ bytes.length
  length_writeVarint : ∀ j k, j ≤ k → (writeVarint j).length ≤ (writeVarint k).length
  length_parse : ∀ bytes h, parse bytes = some h → (serialize h).length ≤ bytes.length
  argsSize_parse : ∀ bytes h, parse bytes = some h → h.argsSize < 2 ^ 32

/-! ## The wire format of the header -/

namespace RpcHeader

open ProtoWire

def serialize (h : RpcHeader) : Bytes :=
  bytesField 1 h.serviceName ++ (bytesField 2 h.methodName ++ varintField 3 h.argsSize)

/-- A field that was read. The last one with a number counts, an unknown one is skipped. -/
def set (h : RpcHeader) : Field → RpcHeader
  | .bytes 1 value => { h with serviceName := value }
  | .bytes 2 value => { h with methodName := value }
  | .varint 3 value => { h with argsSize := value % 2 ^ 32 }
  | _ => h

def parse (bytes : Bytes) : Option RpcHeader := (fieldsOf bytes).map (List.foldl set {})

theorem parse_serialize (h : RpcHeader) (hlt : h.argsSize < 2 ^ 32)
    (hlen : h.serialize.length < 2 ^ 31) : parse h.serialize = some h := by
  have hnames : h.serviceName.length < 2147483648 ∧ h.methodName.length < 2147483648 := by
    have hservice := length_le_bytesField 1 h.serviceName
    have hmethod := length_le_bytesField 2 h.methodName
    simp only [serialize, List.length_append] at hlen
    omega
  have hfields : fieldsOf h.serialize = some
      ((if h.serviceName = [] then [] else [.bytes 1 h.serviceName]) ++
        ((if h.methodName = [] then [] else [.bytes 2 h.methodName]) ++
          ((if h.argsSize = 0 then [] else [.varint 3 h.argsSize]) ++ []))) := by
    have hlast : fieldsOf (varintField 3 h.argsSize ++ []) = _ :=
      fieldsOf_varintField (by decide) (by omega) []
    rw [List.append_nil] at hlast
    rw [serialize, fieldsOf_bytesField (by decide) hnames.1, fieldsOf_bytesField (by decide) hnames.2,
      hlast, fieldsOf_nil]
    rfl
  obtain ⟨service, method, size⟩ := h
  have hsize : size < 4294967296 := hlt
  rw [parse, hfields]
  by_cases hs : service = [] <;> by_cases hm : method = [] <;> by_cases ha : size = 0 <;>
    simp [hs, hm, ha, set, hsize]

theorem length_serialize_set (h : RpcHeader) (f : Field) :
    (h.set f).serialize.length ≤ h.serialize.length + f.size := by
  unfold set
  split
  · rename_i value
    have := length_bytesField_le 1 value
    simp only [serialize, List.length_append]
    omega
  · rename_i value
    have := length_bytesField_le 2 value
    simp only [serialize, List.length_append]
    omega
  · rename_i value
    have : (varintField 3 (value % 2 ^ 32)).length ≤ (Field.varint 3 value).size :=
      length_varintField_le (Nat.mod_le value _)
    simp only [serialize, List.length_append]
    omega
  · exact Nat.le_add_right _ _

theorem length_parse (bytes : Bytes) (h : RpcHeader) (hparse : parse bytes = some h) :
    h.serialize.length ≤ bytes.length := by
  obtain ⟨fields, hfields, rfl⟩ := Option.map_eq_some_iff.1 hparse
  have hempty : ({} : RpcHeader).serialize = [] := by simp [serialize]
  have hle := measure_foldl_le set (fun h => h.serialize.length) length_serialize_set 100 bytes.length
    {} hfields
  rw [hempty, List.length_nil, Nat.zero_add] at hle
  exact hle

theorem argsSize_parse (bytes : Bytes) (h : RpcHeader) (hparse : parse bytes = some h) :
    h.argsSize < 2 ^ 32 := by
  obtain ⟨fields, -, rfl⟩ := Option.map_eq_some_iff.1 hparse
  have hall : ∀ (fields : List Field) (h : RpcHeader), h.argsSize < 2 ^ 32 →
      (fields.foldl set h).argsSize < 2 ^ 32 := by
    intro fields
    induction fields with
    | nil => exact fun h hlt => hlt
    | cons f fields ih =>
      intro h hlt
      refine ih _ ?_
      unfold set
      split
      · exact hlt
      · exact hlt
      · exact Nat.mod_lt _ (by decide)
      · exact hlt
  exact hall fields {} (by decide)

end RpcHeader

/-- The library as it reads and writes the wire format. -/
def Protobuf.wire : Protobuf where
  writeVarint := Varint.write
  readVarint := fun bytes => (Varint.readAtMost 10 bytes).map fun p => (p.1 % 2 ^ 32, p.2)
  serialize := RpcHeader.serialize
  parse := RpcHeader.parse
  readVarint_write := fun k rest hlt => by
    rw [Varint.readAtMost_write (by decide) (by omega), Option.map_some, Nat.mod_eq_of_lt hlt]
  parse_serialize := RpcHeader.parse_serialize
  serialize_default := by simp [RpcHeader.serialize]
  length_readVarint := fun bytes k rest h => by
    obtain ⟨⟨v, rest'⟩, hread, heq⟩ := Option.map_eq_some_iff.1 h
    obtain ⟨rfl, rfl⟩ := Prod.mk.inj heq
    have hlen : (Varint.write v).length + rest'.length ≤ bytes.length :=
      Varint.length_of_read (Varint.read_of_readAtMost hread)
    have hmono := Varint.length_write_mono (Nat.mod_le v (2 ^ 32))
    show (Varint.write (v % 2 ^ 32)).length + rest'.length ≤ bytes.length
    omega
  length_writeVarint := fun _ _ => Varint.length_write_mono
  length_parse := RpcHeader.length_parse
  argsSize_parse := RpcHeader.argsSize_parse

/-- A call: the names of its service and method, and its serialized arguments. -/
structure Request where
  serviceName : Bytes
  methodName : Bytes
  args : Bytes
deriving DecidableEq, Repr

/-- The header `CallMethod` writes. -/
def Request.header (r : Request) : RpcHeader :=
  { serviceName := r.serviceName, methodName := r.methodName, argsSize := r.args.length }

/-- The bytes `CallMethod` composes. -/
def Request.frame (pb : Protobuf) (r : Request) : Bytes :=
  pb.writeVarint (pb.serialize r.header).length ++ (pb.serialize r.header ++ r.args)

/-- `CallMethod` up to `send`. Messages of 2 GB and more are not serialized. -/
def callMethod (pb : Protobuf) (r : Request) : Option Bytes :=
  if r.args.length < 2 ^ 31 ∧ (pb.serialize r.header).length < 2 ^ 31 then some (r.frame pb) else none

/-! ## The provider -/

/-- `_M_services`: by the name of the service and of the method, whether the arguments parse. No
    service descriptor has an empty name. -/
structure Services where
  find : Bytes → Option (Bytes → Option (Bytes → Bool))
  unnamed : find [] = none

/-- A size handed to an `int` parameter. -/
def toInt (size : ℕ) : Int :=
  if size % 2 ^ 32 < 2 ^ 31 then (size % 2 ^ 32 : ℕ) else (size % 2 ^ 32 : ℕ) - 2 ^ 32

/-- What an `ArrayInputStream` over the bytes gives out. -/
def arrayInputStream (bytes : Bytes) : Bytes := bytes.take (toInt bytes.length).toNat

/-- `CodedInputStream::ReadString`: the string, what remains, and whether all of it was there. -/
def readString (bytes : Bytes) (size : Int) : Bytes × Bytes × Bool :=
  if size < 0 then ([], bytes, false)
  else (bytes.take size.toNat, bytes.drop size.toNat, size.toNat ≤ bytes.length)

/-- `ReadVarint32`. It fails with all bits of the number set. -/
def readHeaderSize (pb : Protobuf) (bytes : Bytes) : ℕ × Bytes :=
  match pb.readVarint bytes with
  | some (headerSize, rest) => (headerSize, rest)
  | none => (2 ^ 32 - 1, [])

/-- The part of `_M_onMessage` behind the parsed header. -/
def dispatch (services : Services) (header : RpcHeader) (rest : Bytes) : Option Request :=
  match readString rest (toInt header.argsSize) with
  | (_, _, false) => none
  | (args, _, true) =>
      match services.find header.serviceName with
      | none => none
      | some methods =>
          match methods header.methodName with
          | none => none
          | some parses =>
              if parses args then
                some { serviceName := header.serviceName, methodName := header.methodName, args := args }
              else none

/-- `_M_onMessage`: the request it dispatches, if any. The results of `ReadVarint32` and of the first
    `ReadString` are not looked at, and what follows the arguments is dropped. -/
def onMessage (pb : Protobuf) (services : Services) (recvBuf : Bytes) : Option Request :=
  let (headerSize, rest) := readHeaderSize pb (arrayInputStream recvBuf)
  let (rpcHeaderStr, rest, _) := readString rest (toInt headerSize)
  match pb.parse rpcHeaderStr with
  | none => none
  | some header => dispatch services header rest

/-- The requests dispatched over the deliveries of a connection. -/
def dispatched (pb : Protobuf) (services : Services) (deliveries : List Bytes) : List Request :=
  deliveries.filterMap (onMessage pb services)

/-- The provider has the method, and the arguments parse. -/
def Services.Accepts (services : Services) (r : Request) : Prop :=
  ∃ methods parses, services.find r.serviceName = some methods ∧ methods r.methodName = some parses ∧
    parses r.args = true

variable {pb : Protobuf} {services : Services}

/-! ## One delivery -/

theorem toInt_of_lt {size : ℕ} (h : size < 2 ^ 31) : toInt size = size := by
  unfold toInt
  split_ifs <;> omega

theorem toInt_lt (size : ℕ) : toInt size < 2 ^ 31 := by
  unfold toInt
  split_ifs <;> omega

theorem toInt_toNat_le (size : ℕ) : (toInt size).toNat ≤ size := by
  unfold toInt
  split_ifs <;> omega

theorem arrayInputStream_of_lt {bytes : Bytes} (h : bytes.length < 2 ^ 31) :
    arrayInputStream bytes = bytes := by
  rw [arrayInputStream, toInt_of_lt h, Int.toNat_natCast, List.take_length]

/-- An array that is given out whole is short enough for an `int`. -/
theorem length_arrayInputStream (bytes : Bytes) : (arrayInputStream bytes).length ≤ bytes.length ∧
    ((arrayInputStream bytes).length = bytes.length → bytes.length < 2 ^ 31) := by
  have hlt := toInt_lt bytes.length
  have hle := toInt_toNat_le bytes.length
  rw [arrayInputStream, List.length_take]
  omega

theorem readString_of_le {bytes : Bytes} {size : ℕ} (hlt : size < 2 ^ 31) (hle : size ≤ bytes.length) :
    readString bytes (toInt size) = (bytes.take size, bytes.drop size, true) := by
  rw [readString, toInt_of_lt hlt, if_neg (by omega), Int.toNat_natCast]
  simp [hle]

/-- What `readString` takes and leaves is no longer than what was there. -/
theorem length_readString (bytes : Bytes) (size : ℕ) :
    (readString bytes (toInt size)).1.length + (readString bytes (toInt size)).2.1.length =
      bytes.length ∧ (readString bytes (toInt size)).1.length ≤ size ∧
      ((readString bytes (toInt size)).2.2 = true →
        (toInt size : Int) = (readString bytes (toInt size)).1.length) := by
  have hle := toInt_toNat_le size
  unfold readString
  by_cases hneg : toInt size < 0
  · rw [if_pos hneg]
    simp
  · rw [if_neg hneg]
    simp only [List.length_take, List.length_drop, decide_eq_true_iff]
    omega

/-- A request that is dispatched has the names of the header, and as its arguments what the header's
    size says. -/
theorem dispatch_eq_some {header : RpcHeader} {rest : Bytes} {r : Request}
    (h : dispatch services header rest = some r) :
    r.serviceName = header.serviceName ∧ r.methodName = header.methodName ∧
      services.find header.serviceName ≠ none ∧
      readString rest (toInt header.argsSize) =
        (r.args, (readString rest (toInt header.argsSize)).2.1, true) := by
  unfold dispatch at h
  rcases hread : readString rest (toInt header.argsSize) with ⟨args, rest', ok⟩
  rw [hread] at h
  cases ok with
  | false => simp at h
  | true =>
    cases hfind : services.find header.serviceName with
    | none => simp [hfind] at h
    | some methods =>
      cases hmethod : methods header.methodName with
      | none => simp [hfind, hmethod] at h
      | some parses =>
        by_cases hparse : parses args
        · simp only [hfind, hmethod, if_pos hparse, Option.some.injEq] at h
          subst h
          exact ⟨rfl, rfl, by simp, rfl⟩
        · simp [hfind, hmethod, hparse] at h

/-- A whole request by itself is dispatched. -/
theorem onMessage_frame {r : Request} (haccepts : services.Accepts r)
    (hlt : (r.frame pb).length < 2 ^ 31) : onMessage pb services (r.frame pb) = some r := by
  obtain ⟨methods, parses, hfind, hmethod, hparse⟩ := haccepts
  have hlen : (r.frame pb).length = (pb.writeVarint (pb.serialize r.header).length).length +
      ((pb.serialize r.header).length + r.args.length) := by
    simp [Request.frame]
  have hsize : readHeaderSize pb (arrayInputStream (r.frame pb)) =
      ((pb.serialize r.header).length, pb.serialize r.header ++ r.args) := by
    rw [arrayInputStream_of_lt hlt, readHeaderSize, Request.frame, pb.readVarint_write _ _ (by omega)]
  have hheader : readString (pb.serialize r.header ++ r.args)
      (toInt (pb.serialize r.header).length) = (pb.serialize r.header, r.args, true) := by
    rw [readString_of_le (by omega) (by simp), List.take_left, List.drop_left]
  have hargs : readString r.args (toInt r.header.argsSize) = (r.args, [], true) := by
    show readString r.args (toInt r.args.length) = (r.args, [], true)
    rw [readString_of_le (by omega) le_rfl, List.take_length, List.drop_length]
  have hargsSize : r.header.argsSize < 2 ^ 32 := by
    show r.args.length < 2 ^ 32
    omega
  have hheaderSize : (pb.serialize r.header).length < 2 ^ 31 := by omega
  simp only [onMessage, hsize, hheader, pb.parse_serialize _ hargsSize hheaderSize, dispatch, hargs]
  have hfind' : services.find r.header.serviceName = some methods := hfind
  have hmethod' : methods r.header.methodName = some parses := hmethod
  simp only [hfind', hmethod', if_pos hparse]
  rfl

/-- What an `ArrayInputStream` gives out of a delivery is no shorter than the frame of the request
    dispatched from it. -/
theorem length_frame_le {recvBuf : Bytes} {r : Request} (h : onMessage pb services recvBuf = some r) :
    (r.frame pb).length ≤ (arrayInputStream recvBuf).length := by
  unfold onMessage at h
  rcases hsize : readHeaderSize pb (arrayInputStream recvBuf) with ⟨headerSize, rest⟩
  obtain ⟨hsplit, hstrLe, -⟩ := length_readString rest headerSize
  rcases hread : readString rest (toInt headerSize) with ⟨rpcHeaderStr, rest', ok⟩
  rw [hread] at hsplit hstrLe
  simp only [hsize, hread] at h
  cases hparse : pb.parse rpcHeaderStr with
  | none => simp [hparse] at h
  | some header =>
    simp only [hparse] at h
    obtain ⟨hservice, hmethod, hfound, hargs⟩ := dispatch_eq_some h
    obtain ⟨hsplitArgs, -, hargsSize⟩ := length_readString rest' header.argsSize
    rw [hargs] at hsplitArgs hargsSize
    have hheader : r.header = header := by
      have heq : (toInt header.argsSize : Int) = r.args.length := hargsSize rfl
      have hlt := pb.argsSize_parse _ _ hparse
      have hsame : r.args.length = header.argsSize := by
        unfold toInt at heq
        split_ifs at heq <;> omega
      rw [Request.header, hservice, hmethod, hsame]
    have hstr : (pb.serialize r.header).length ≤ rpcHeaderStr.length := by
      rw [hheader]
      exact pb.length_parse _ _ hparse
    have hframe : (r.frame pb).length = (pb.writeVarint (pb.serialize r.header).length).length +
        ((pb.serialize r.header).length + r.args.length) := by
      simp [Request.frame]
    unfold readHeaderSize at hsize
    cases hvarint : pb.readVarint (arrayInputStream recvBuf) with
    | none =>
      -- nothing is left to read a header from, and the empty header names no service
      simp only [hvarint, Prod.mk.injEq] at hsize
      obtain ⟨-, rfl⟩ := hsize
      have hnil : rpcHeaderStr = [] := by
        rw [List.length_nil] at hsplit
        exact List.length_eq_zero_iff.1 (Nat.eq_zero_of_add_eq_zero hsplit).1
      have hdefault : header = {} := by
        have hempty := pb.parse_serialize {} (by decide) (by rw [pb.serialize_default]; decide)
        rw [pb.serialize_default] at hempty
        rw [hnil, hempty, Option.some.injEq] at hparse
        exact hparse.symm
      rw [hdefault] at hfound
      exact absurd services.unnamed hfound
    | some p =>
      simp only [hvarint, Prod.mk.injEq] at hsize
      obtain ⟨rfl, rfl⟩ := hsize
      have hlen := pb.length_readVarint _ _ _ hvarint
      have hmono := pb.length_writeVarint _ _ (hstr.trans hstrLe)
      simp only at hsplit hsplitArgs
      omega

/-! ## A connection -/

/-- Everything sent is dispatched in order exactly when TCP delivers request by request, in deliveries
    shorter than 2 GB. -/
theorem dispatched_iff (pb : Protobuf) (services : Services) {requests : List Request}
    {frames deliveries : List Bytes} (haccepts : ∀ r ∈ requests, services.Accepts r)
    (hsent : requests.map (callMethod pb) = frames.map some)
    (hcut : deliveries.flatten = frames.flatten) (hne : ∀ d ∈ deliveries, d ≠ []) :
    dispatched pb services deliveries = requests ↔
      deliveries = frames ∧ ∀ d ∈ deliveries, d.length < 2 ^ 31 := by
  have hframes : frames = requests.map (Request.frame pb) := by
    have hsome : requests.map (callMethod pb) = (requests.map (Request.frame pb)).map some := by
      rw [List.map_map]
      refine List.map_congr_left fun r hr => ?_
      have hmem : callMethod pb r ∈ frames.map some := hsent ▸ List.mem_map_of_mem hr
      obtain ⟨f, -, hf⟩ := List.mem_map.1 hmem
      unfold callMethod at hf ⊢
      split_ifs at hf ⊢
      · rfl
    exact (List.map_injective_iff.2 (Option.some_injective _)) (hsent.symm.trans hsome)
  subst hframes
  have hlen : ∀ d r, onMessage pb services d = some r → (r.frame pb).length ≤ d.length :=
    fun d r h => (length_frame_le h).trans (length_arrayInputStream d).1
  constructor
  · intro hall
    have heq := Framing.eq_frames_of_filterMap_eq hlen hne hcut hall
    refine ⟨heq, fun d hd => ?_⟩
    -- the whole of each delivery is given out, since its own request is dispatched
    rw [heq] at hall hd
    obtain ⟨r, hr, rfl⟩ := List.mem_map.1 hd
    have hread := length_frame_le (Framing.filterMap_frames_iff.1 hall r hr)
    obtain ⟨hle, hlt⟩ := length_arrayInputStream (r.frame pb)
    exact hlt (le_antisymm hle hread)
  · rintro ⟨rfl, hlt⟩
    exact Framing.filterMap_frames_iff.2 fun r hr =>
      onMessage_frame (haccepts r hr) (hlt _ (List.mem_map_of_mem hr))

/-- "raftBase" -/
def raftBaseName : Bytes := [114, 97, 102, 116, 66, 97, 115, 101]

/-- "requestVote" -/
def requestVoteName : Bytes := [114, 101, 113, 117, 101, 115, 116, 86, 111, 116, 101]

/-- A provider of `raftBase` that offers `requestVote`. -/
def voteServices : Services where
  find := fun service =>
    if service = raftBaseName then
      some fun method => if method = requestVoteName then some fun _ => true else none
    else none
  unnamed := by decide

/-- A request for a vote in term 1, and one without arguments. -/
def twoRequests : List Request :=
  [⟨raftBaseName, requestVoteName, [8, 1]⟩, ⟨raftBaseName, requestVoteName, []⟩]

theorem twoRequests_accepted : ∀ r ∈ twoRequests, voteServices.Accepts r := by
  intro r hr
  simp only [twoRequests, List.mem_cons, List.not_mem_nil, or_false] at hr
  rcases hr with rfl | rfl
  · exact ⟨_, _, rfl, rfl, rfl⟩
  · exact ⟨_, _, rfl, rfl, rfl⟩

theorem twoRequests_sent : twoRequests.map (callMethod .wire) =
    (twoRequests.map (Request.frame .wire)).map some := by
  decide +kernel

theorem dispatched_iff_twoRequests :
    dispatched .wire voteServices (twoRequests.map (Request.frame .wire)) = twoRequests :=
  (dispatched_iff .wire voteServices twoRequests_accepted twoRequests_sent rfl (by decide +kernel)).2
    ⟨rfl, by decide +kernel⟩

/-- Delivered in one piece, the second request is lost; cut inside its header behind the name of the
    method, the first is dispatched with empty arguments. -/
theorem dispatched_joined_or_cut :
    let frames := twoRequests.map (Request.frame .wire)
    (∀ r ∈ twoRequests, voteServices.Accepts r) ∧
      twoRequests.map (callMethod .wire) = frames.map some ∧
      (∀ d ∈ [frames.flatten], d ≠ []) ∧ [frames.flatten].flatten = frames.flatten ∧
      dispatched .wire voteServices [frames.flatten] ≠ twoRequests ∧
      dispatched .wire voteServices [frames.flatten.take 24, (frames.flatten.drop 24).take 4,
        frames.flatten.drop 28] =
          [⟨raftBaseName, requestVoteName, []⟩, ⟨raftBaseName, requestVoteName, []⟩] :=
  ⟨twoRequests_accepted, twoRequests_sent, by decide +kernel, by decide +kernel, by decide +kernel,
    by decide +kernel⟩

end RaftKVStorage
