import MutableBitcoin.Lib.StreamReaders
import MutableBitcoin.NetMessage

/-!
# Receiving messages does not depend on the chunks

A machine that takes single bytes collects them until a message is complete. `ReceiveMsgBytes` makes
of any chunk what this machine makes of its bytes.
-/

namespace MutableBitcoin
open Lib List Option

variable {pchMessageStart : BaseBlob 4} {msg : CNetMessage} {cur pch raw : Bytes}

section Frames

lemma reads_messageHeader (hdr : CMessageHeader) : Reads readMessageHeader hdr.serialize hdr := by
  unfold readMessageHeader CMessageHeader.serialize
  exact (reads_blob hdr.pchMessageStart).bind ((reads_blob hdr.pchCommand).bind
    ((reads_uInt32 hdr.nMessageSize).bind ((reads_blob hdr.pchChecksum).map _)))

lemma length_serialize (hdr : CMessageHeader) : hdr.serialize.length = 24 := by
  unfold CMessageHeader.serialize serializeUInt32
  simp [BaseBlob.length_data]

lemma exists_header (hlen : raw.length = 24) : ∃ hdr : CMessageHeader, hdr.serialize = raw := by
  obtain ⟨a, b, hraw, ha⟩ : ∃ a b, raw = a ++ b ∧ a.length = 4 :=
    ⟨raw.take 4, raw.drop 4, (take_append_drop 4 raw).symm, by simp [hlen]⟩
  obtain ⟨c, d, hb, hc⟩ : ∃ c d, b = c ++ d ∧ c.length = 12 := by
    have hblen : b.length = 20 := by
      rw [hraw, length_append] at hlen
      omega
    exact ⟨b.take 12, b.drop 12, (take_append_drop 12 b).symm, by simp [hblen]⟩
  obtain ⟨e, f, hd, he⟩ : ∃ e f, d = e ++ f ∧ e.length = 4 := by
    have hdlen : d.length = 8 := by
      rw [hraw, hb, length_append, length_append] at hlen
      omega
    exact ⟨d.take 4, d.drop 4, (take_append_drop 4 d).symm, by simp [hdlen]⟩
  have hf : f.length = 4 := by
    rw [hraw, hb, hd] at hlen
    simp only [length_append] at hlen
    omega
  refine ⟨⟨⟨a, ha⟩, ⟨c, hc⟩, UInt32.ofNat (leValue e), ⟨f, hf⟩⟩, ?_⟩
  have hlt : leValue e < 256 ^ 4 := he ▸ leValue_lt e
  have hsize : serializeUInt32 (UInt32.ofNat (leValue e)) = e := by
    unfold serializeUInt32
    apply leValue_injOn (by rw [length_leBytes, he])
    rw [UInt32.toNat_ofNat', Nat.mod_eq_of_lt (by omega), leValue_leBytes hlt]
  unfold CMessageHeader.serialize
  rw [hsize, hraw, hb, hd]

def headerOf (raw : Bytes) : CMessageHeader :=
  match readMessageHeader (raw.take 24) with
  | .ok (hdr, _) => hdr
  | .error _ => CMessageHeader.init (BaseBlob.null 4)

lemma headerOf_serialize (hdr : CMessageHeader) (rest : Bytes) : headerOf (hdr.serialize ++ rest) = hdr := by
  have htake : (hdr.serialize ++ rest).take 24 = hdr.serialize ++ [] := by
    rw [append_nil, ← length_serialize hdr, take_left]
  unfold headerOf
  rw [htake, reads_messageHeader hdr []]

lemma read_headerOf (hlen : 24 ≤ raw.length) : readMessageHeader (raw.take 24) = .ok (headerOf raw, []) := by
  obtain ⟨hdr, hhdr⟩ := exists_header (length_take_of_le hlen)
  have hread := reads_messageHeader hdr []
  rw [append_nil, hhdr] at hread
  unfold headerOf
  rw [hread]

lemma headerOf_append (hlen : 24 ≤ raw.length) (rest : Bytes) : headerOf (raw ++ rest) = headerOf raw := by
  unfold headerOf
  rw [take_append_of_le_length hlen]

def frameStep (cur : Bytes) (b : UInt8) : Option (Bytes × List Bytes) :=
  if (cur ++ [b]).length < 24 then some (cur ++ [b], [])
  else if (headerOf (cur ++ [b])).nMessageSize.toNat > MAX_PROTOCOL_MESSAGE_LENGTH then none
  else if (cur ++ [b]).length < 24 + (headerOf (cur ++ [b])).nMessageSize.toNat then some (cur ++ [b], [])
  else some ([], [cur ++ [b]])

/-- The message needs more bytes. -/
def Incomplete (cur : Bytes) : Prop :=
  cur.length < 24 ∨ (headerOf cur).nMessageSize.toNat ≤ MAX_PROTOCOL_MESSAGE_LENGTH ∧
    cur.length < 24 + (headerOf cur).nMessageSize.toNat

lemma Incomplete.of_append {bs : Bytes} (h : Incomplete (cur ++ bs)) : Incomplete cur := by
  by_cases hlen : cur.length < 24
  · exact Or.inl hlen
  · rcases h with h | h
    · rw [length_append] at h
      omega
    · rw [headerOf_append (by omega), length_append] at h
      exact Or.inr ⟨h.1, by omega⟩

lemma feed_incomplete (bs : Bytes) : ∀ {cur}, Incomplete (cur ++ bs) → feed frameStep cur bs = ([], some (cur ++ bs)) := by
  induction bs with
  | nil =>
    intro cur _
    rw [feed_nil, append_nil]
  | cons b bs ih =>
    intro cur h
    rw [append_cons] at h
    have hstep : frameStep cur b = some (cur ++ [b], []) := by
      have hb := h.of_append
      unfold frameStep
      by_cases hlen : (cur ++ [b]).length < 24
      · rw [if_pos hlen]
      · have hb := hb.resolve_left hlen
        rw [if_neg hlen, if_neg (by omega), if_pos hb.2]
    rw [feed_cons_some hstep, ih h]
    simp

lemma feed_last {init : Bytes} {b : UInt8} (hinc : Incomplete (cur ++ init)) :
    feed frameStep cur (init ++ [b]) = match frameStep (cur ++ init) b with
      | none => ([], none)
      | some (s, out) => (out, some s) := by
  rw [feed_append_some (feed_incomplete init hinc)]
  cases hstep : frameStep (cur ++ init) b with
  | none =>
    rw [feed_cons_none hstep]
    rfl
  | some r =>
    rw [feed_cons_some hstep]
    simp

/-- A header and as many bytes as it announces. -/
structure WholeFrame (raw : Bytes) : Prop where
  size : (headerOf raw).nMessageSize.toNat ≤ MAX_PROTOCOL_MESSAGE_LENGTH
  length : raw.length = 24 + (headerOf raw).nMessageSize.toNat

lemma feed_whole {bs : Bytes} (hbs : bs ≠ []) (hwhole : WholeFrame (cur ++ bs)) :
    feed frameStep cur bs = ([cur ++ bs], some []) := by
  obtain ⟨init, b, rfl⟩ := (eq_nil_or_concat' bs).resolve_left hbs
  rw [← append_assoc] at hwhole
  have hlen := hwhole.length
  have hsize := hwhole.size
  have hinc : Incomplete (cur ++ init) := by
    by_cases hshort : (cur ++ init).length < 24
    · exact Or.inl hshort
    · rw [headerOf_append (by omega)] at hlen hsize
      rw [length_append] at hlen
      exact Or.inr ⟨hsize, by simp only [length_singleton] at hlen; omega⟩
  have hstep : frameStep (cur ++ init) b = some ([], [cur ++ init ++ [b]]) := by
    unfold frameStep
    rw [if_neg (by omega), if_neg (by omega), if_neg (by omega)]
  rw [feed_last hinc, hstep, append_assoc]

lemma feed_reject {bs : Bytes} (hbs : bs ≠ []) (hlen : (cur ++ bs).length = 24)
    (hsize : MAX_PROTOCOL_MESSAGE_LENGTH < (headerOf (cur ++ bs)).nMessageSize.toNat) :
    feed frameStep cur bs = ([], none) := by
  obtain ⟨init, b, rfl⟩ := (eq_nil_or_concat' bs).resolve_left hbs
  rw [← append_assoc] at hlen hsize
  have hinc : Incomplete (cur ++ init) := by
    rw [length_append, length_singleton] at hlen
    exact Or.inl (by omega)
  have hstep : frameStep (cur ++ init) b = none := by
    unfold frameStep
    rw [if_neg (by omega), if_pos hsize]
  rw [feed_last hinc, hstep]

end Frames

section Rounds

/-- A message of which the bytes `cur` have been received. -/
inductive Partial (cur : Bytes) (msg : CNetMessage) : Prop
  | header : cur.length < 24 → msg.in_data = false → msg.nHdrPos = cur.length → msg.hdrbuf.length = 24 →
      msg.hdrbuf.take cur.length = cur → msg.nDataPos = 0 → msg.vRecv = [] → msg.hasher = [] →
      msg.data_hash = BaseBlob.null 32 → Partial cur msg
  | data : 24 ≤ cur.length → (headerOf cur).nMessageSize.toNat ≤ MAX_PROTOCOL_MESSAGE_LENGTH →
      cur.length < 24 + (headerOf cur).nMessageSize.toNat → msg.in_data = true → msg.hdr = headerOf cur →
      24 + msg.nDataPos = cur.length → msg.nDataPos ≤ msg.vRecv.length →
      msg.vRecv.length ≤ (headerOf cur).nMessageSize.toNat → msg.vRecv.take msg.nDataPos = cur.drop 24 →
      msg.hasher = cur.drop 24 → msg.data_hash = BaseBlob.null 32 → msg.hdrbuf = [] → msg.nHdrPos = 24 →
      Partial cur msg

/-- `msg` has received the frame `raw`. -/
structure Holds (raw : Bytes) (msg : CNetMessage) : Prop where
  whole : WholeFrame raw
  in_data : msg.in_data = true
  hdr : msg.hdr = headerOf raw
  nDataPos : 24 + msg.nDataPos = raw.length
  vRecv : msg.vRecv = raw.drop 24
  hasher : msg.hasher = raw.drop 24
  data_hash : msg.data_hash = BaseBlob.null 32
  hdrbuf : msg.hdrbuf = []
  nHdrPos : msg.nHdrPos = 24

/-- What a call of `readHeader` or `readData` makes of the first bytes of a chunk. -/
inductive Absorbed (cur pch : Bytes) : Option ℕ → CNetMessage → Prop
  | partly (k : ℕ) (msg : CNetMessage) : 0 < k → k ≤ pch.length → Partial (cur ++ pch.take k) msg →
      feed frameStep cur (pch.take k) = ([], some (cur ++ pch.take k)) → Absorbed cur pch (some k) msg
  | whole (k : ℕ) (msg : CNetMessage) : 0 < k → k ≤ pch.length → Holds (cur ++ pch.take k) msg →
      feed frameStep cur (pch.take k) = ([cur ++ pch.take k], some []) → Absorbed cur pch (some k) msg
  | rejected (k : ℕ) (handled : Option ℕ) (msg : CNetMessage) : k ≤ pch.length → msg.complete = false →
      (handled = none ∨ msg.in_data = true ∧ MAX_PROTOCOL_MESSAGE_LENGTH < msg.hdr.nMessageSize.toNat) →
      feed frameStep cur (pch.take k) = ([], none) → Absorbed cur pch handled msg

lemma Holds.complete (h : Holds raw msg) : msg.complete = true := by
  have hlen := h.whole.length
  have hpos := h.nDataPos
  unfold CNetMessage.complete
  rw [h.in_data, h.hdr]
  simp only [Bool.not_true, Bool.false_eq_true, if_false, beq_iff_eq]
  omega

lemma Partial.not_complete (h : Partial cur msg) : msg.complete = false := by
  unfold CNetMessage.complete
  cases h with
  | header _ hin => simp [hin]
  | data hlen _ hlt hin hhdr hpos =>
    rw [hin, hhdr]
    simp only [Bool.not_true, Bool.false_eq_true, if_false, beq_eq_false_iff_ne, ne_eq]
    omega

lemma writeAt_ok {buf data : Bytes} {pos : ℕ} (h : pos + data.length ≤ buf.length) :
    writeAt buf pos data = .ok (buf.take pos ++ data ++ buf.drop (pos + data.length)) := by
  unfold writeAt
  rw [if_pos h]

lemma unsignedAdd_eq {a b : ℕ} (h : a + b < 2 ^ 32) : unsignedAdd a b = a + b := by
  rw [unsignedAdd, Nat.add_comm, Nat.mod_eq_of_lt h]

lemma unsignedSub_eq {a b : ℕ} (h : b ≤ a) (ha : a < 2 ^ 32) : unsignedSub a b = a - b := by
  unfold unsignedSub
  omega

lemma absorbed_readHeader (h : Partial cur msg) (hin : msg.in_data = false) (hpch : pch ≠ []) :
    ∃ handled msg', msg.readHeader pch = .ok (handled, msg') ∧ Absorbed cur pch handled msg' := by
  cases h with
  | data _ _ _ hin' =>
    rw [hin] at hin'
    cases hin'
  | header hlt _ hpos hbuf htake hdata hrecv hhasher hhash =>
    have hpos' := length_pos_iff.mpr hpch
    unfold CNetMessage.readHeader
    have hremaining : unsignedSub 24 msg.nHdrPos = 24 - cur.length := by
      rw [hpos, unsignedSub_eq hlt.le (by decide)]
    dsimp only
    rw [hremaining]
    generalize hk : min (24 - cur.length) pch.length = k
    have hk₀ : 0 < k := by omega
    have hkle : k ≤ pch.length := by omega
    have hlen : (pch.take k).length = k := length_take_of_le hkle
    have htotal : (cur ++ pch.take k).length = cur.length + k := by rw [length_append, hlen]
    have hne : pch.take k ≠ [] := length_pos_iff.mp (by omega)
    have hnew : unsignedAdd msg.nHdrPos k = cur.length + k := by
      rw [hpos, unsignedAdd_eq (by omega)]
    rw [writeAt_ok (by omega)]
    dsimp only
    rw [hnew, hlen, hpos, htake]
    by_cases hshort : cur.length + k < 24
    · rw [if_pos hshort]
      have hinc : Incomplete (cur ++ pch.take k) := Or.inl (by omega)
      refine ⟨_, _, rfl, .partly k _ hk₀ hkle (.header (by omega) hin htotal.symm ?_ ?_ hdata hrecv hhasher hhash)
        (feed_incomplete _ hinc)⟩
      · dsimp only
        rw [length_append, htotal, length_drop]
        omega
      · dsimp only
        exact take_left' rfl
    -- the header is complete
    have hfull : (cur ++ pch.take k).length = 24 := by omega
    have hread := read_headerOf hfull.ge
    rw [take_of_length_le hfull.le] at hread
    rw [if_neg hshort, drop_of_length_le (by omega), append_nil, hread]
    dsimp only
    by_cases hmax : (headerOf (cur ++ pch.take k)).nMessageSize.toNat > MAX_SIZE
    · rw [if_pos hmax]
      refine ⟨_, _, rfl, .rejected k _ _ hkle ?_ (Or.inl rfl) (feed_reject hne hfull ?_)⟩
      · unfold CNetMessage.complete
        rw [hin]
        rfl
      · exact (show MAX_PROTOCOL_MESSAGE_LENGTH < MAX_SIZE by decide).trans hmax
    rw [if_neg hmax]
    by_cases hsize : MAX_PROTOCOL_MESSAGE_LENGTH < (headerOf (cur ++ pch.take k)).nMessageSize.toNat
    · refine ⟨_, _, rfl, .rejected k _ _ hkle ?_ (Or.inr ⟨rfl, hsize⟩) (feed_reject hne hfull hsize)⟩
      unfold CNetMessage.complete
      dsimp only
      rw [hdata]
      have hpos₀ : 0 < (headerOf (cur ++ pch.take k)).nMessageSize.toNat := by omega
      simp
      omega
    have hempty : (cur ++ pch.take k).drop 24 = [] := drop_of_length_le hfull.le
    by_cases hzero : (headerOf (cur ++ pch.take k)).nMessageSize.toNat = 0
    · have hwhole : WholeFrame (cur ++ pch.take k) := ⟨by omega, by omega⟩
      refine ⟨_, _, rfl, .whole k _ hk₀ hkle ⟨hwhole, rfl, rfl, ?_, ?_, ?_, hhash, rfl, ?_⟩ (feed_whole hne hwhole)⟩
      · dsimp only
        omega
      · rw [hempty]
        exact hrecv
      · rw [hempty]
        exact hhasher
      · dsimp only
        omega
    · refine ⟨_, _, rfl, .partly k _ hk₀ hkle (.data hfull.ge (by omega) (by omega) rfl rfl ?_ ?_ ?_ ?_ ?_ hhash rfl ?_)
        (feed_incomplete _ (Or.inr ⟨by omega, by omega⟩))⟩
      · dsimp only
        omega
      · dsimp only
        omega
      · dsimp only
        rw [hrecv]
        exact Nat.zero_le _
      · dsimp only
        rw [hempty, hrecv, take_nil]
      · rw [hempty]
        exact hhasher
      · dsimp only
        omega

lemma length_resize (buf : Bytes) (n : ℕ) : (resize buf n).length = n := by
  unfold resize
  rw [length_append, length_take, length_replicate]
  omega

lemma take_resize {buf : Bytes} {n k : ℕ} (hk : k ≤ n) (hbuf : k ≤ buf.length) : (resize buf n).take k = buf.take k := by
  unfold resize
  rw [take_append_of_le_length (by rw [length_take]; omega), take_take, Nat.min_eq_left hk]

lemma exists_grown {buf : Bytes} {n pos k : ℕ} (ahead : ℕ) (hpos : pos ≤ buf.length) (hbuf : buf.length ≤ n) (hk : pos + k ≤ n)
    (hahead : n + ahead < 2 ^ 32) :
    ∃ grown, (if buf.length < unsignedAdd pos k then resize buf (min n (unsignedAdd (unsignedAdd pos k) ahead)) else buf) =
        grown ∧
      pos + k ≤ grown.length ∧ grown.length ≤ n ∧ grown.take pos = buf.take pos := by
  refine ⟨_, rfl, ?_⟩
  rw [unsignedAdd_eq (a := pos) (by omega), unsignedAdd_eq (by omega)]
  split_ifs with hgrow
  · rw [length_resize, take_resize (by omega) hpos]
    exact ⟨by omega, by omega, rfl⟩
  · exact ⟨by omega, hbuf, rfl⟩

lemma absorbed_readData (h : Partial cur msg) (hin : msg.in_data = true) (hpch : pch ≠ []) :
    ∃ handled msg', msg.readData pch = .ok (handled, msg') ∧ Absorbed cur pch handled msg' := by
  cases h with
  | header _ hin' =>
    rw [hin] at hin'
    cases hin'
  | data hlen₀ hsize hlt _ hhdr hpos hle hlerecv htake hhasher hhash hhdrbuf hhdrpos =>
    have hpos' := length_pos_iff.mpr hpch
    have hmax : MAX_PROTOCOL_MESSAGE_LENGTH = 4000000 := rfl
    generalize hn : (headerOf cur).nMessageSize.toNat = n at hsize hlt hlerecv
    unfold CNetMessage.readData
    rw [hhdr, hn]
    have hremaining : unsignedSub n msg.nDataPos = n - msg.nDataPos := unsignedSub_eq (by omega) (by omega)
    dsimp only
    rw [hremaining]
    generalize hk : min (n - msg.nDataPos) pch.length = k
    have hk₀ : 0 < k := by omega
    have hkle : k ≤ pch.length := by omega
    have hlen : (pch.take k).length = k := length_take_of_le hkle
    have htotal : (cur ++ pch.take k).length = cur.length + k := by rw [length_append, hlen]
    have hne : pch.take k ≠ [] := length_pos_iff.mp (by omega)
    obtain ⟨vRecv, hvRecv, hfits, hwithin, hold⟩ :=
      exists_grown (256 * 1024) hle hlerecv (show msg.nDataPos + k ≤ n by omega) (by omega)
    have hnew : unsignedAdd msg.nDataPos k = msg.nDataPos + k := unsignedAdd_eq (by omega)
    rw [hvRecv, writeAt_ok (by omega), hnew]
    dsimp only
    rw [hlen, hold, htake]
    have hheader : headerOf (cur ++ pch.take k) = headerOf cur := headerOf_append hlen₀ _
    have hdrop : (cur ++ pch.take k).drop 24 = cur.drop 24 ++ pch.take k := drop_append_of_le_length hlen₀
    have hdlen : (cur.drop 24 ++ pch.take k).length = msg.nDataPos + k := by
      rw [length_append, length_drop, hlen]
      omega
    by_cases hfull : cur.length + k = 24 + n
    · have hwhole : WholeFrame (cur ++ pch.take k) := by
        refine ⟨?_, ?_⟩
        · rw [hheader, hn]
          exact hsize
        · rw [hheader, hn, htotal]
          exact hfull
      refine ⟨_, _, rfl, .whole k _ hk₀ hkle ⟨hwhole, hin, hheader.symm, ?_, ?_, ?_, hhash, hhdrbuf, hhdrpos⟩
        (feed_whole hne hwhole)⟩
      · dsimp only
        omega
      · dsimp only
        rw [drop_of_length_le (l := vRecv) (by omega), append_nil, hdrop]
      · dsimp only
        rw [hdrop, hhasher]
    · refine ⟨_, _, rfl, .partly k _ hk₀ hkle (.data (by omega) (by rw [hheader, hn]; exact hsize)
        (by rw [hheader, hn]; omega) hin hheader.symm ?_ ?_ ?_ ?_ ?_ hhash hhdrbuf hhdrpos)
        (feed_incomplete _ (Or.inr ⟨by rw [hheader, hn]; exact hsize, by rw [hheader, hn]; omega⟩))⟩
      · dsimp only
        omega
      · dsimp only
        rw [length_append, hdlen]
        omega
      · dsimp only
        rw [length_append, hdlen, length_drop, hheader, hn]
        omega
      · dsimp only
        rw [take_left' hdlen, hdrop]
      · dsimp only
        rw [hdrop, hhasher]

end Rounds

section Chunks

variable {raws : List Bytes} {complete : Bool} {l done : List CNetMessage} {node node' : ReceiveNode}

/-- The message that the bytes `cur` are of stands at the back of `vRecvMsg`. -/
inductive Back : Bytes → List CNetMessage → Prop
  | none : Back [] []
  | last {cur : Bytes} {msg : CNetMessage} : cur ≠ [] → Partial cur msg → Back cur [msg]

lemma partial_init : Partial [] (CNetMessage.init pchMessageStart) :=
  .header (by decide) rfl rfl rfl rfl rfl rfl rfl rfl

lemma Back.incomplete (h : Back cur l) : ∀ msg ∈ l, msg.complete = false := by
  cases h with
  | none => exact fun msg hmsg => absurd hmsg not_mem_nil
  | last _ hpart =>
    intro msg hmsg
    rw [mem_singleton.mp hmsg]
    exact hpart.not_complete

lemma complete_of_forall₂ (h : List.Forall₂ Holds raws done) : ∀ msg ∈ done, msg.complete = true := by
  intro msg hmsg
  obtain ⟨i, hi, rfl⟩ := mem_iff_getElem.mp hmsg
  exact (h.get (h.length_eq ▸ hi) hi).complete

variable (pchMessageStart) in
lemma exists_current (hdone : List.Forall₂ Holds raws done) (hback : Back cur l) :
    ∃ msg, Partial cur msg ∧ withCurrent pchMessageStart (done ++ l) = done ++ [msg] := by
  unfold withCurrent
  cases hback with
  | none =>
    refine ⟨CNetMessage.init pchMessageStart, partial_init, ?_⟩
    rw [append_nil]
    cases hlast : done.getLast? with
    | none => rfl
    | some msg =>
      have hcomplete := complete_of_forall₂ hdone msg (mem_of_getLast? hlast)
      dsimp only
      rw [if_pos hcomplete]
  | @last _ msg _ hpart =>
    refine ⟨msg, hpart, ?_⟩
    rw [getLast?_append, getLast?_singleton, some_or]
    dsimp only
    rw [if_neg (by rw [hpart.not_complete]; exact Bool.false_ne_true)]

/-- What `ReceiveMsgBytes` leaves when its bytes give the messages `out` and the state `r` behind them. -/
inductive LoopDone (raws : List Bytes) (complete : Bool) : List Bytes × Option Bytes → Received → Prop
  | open (out : List Bytes) (cur : Bytes) (done l : List CNetMessage) : List.Forall₂ Holds (raws ++ out) done → Back cur l →
      LoopDone raws complete (out, some cur) ⟨true, complete || !out.isEmpty, done ++ l⟩
  | closed (out : List Bytes) (done : List CNetMessage) (msg : CNetMessage) : List.Forall₂ Holds (raws ++ out) done →
      msg.complete = false → LoopDone raws complete (out, none) ⟨false, complete || !out.isEmpty, done ++ [msg]⟩

lemma LoopDone.cons {frame : Bytes} {r : List Bytes × Option Bytes} {received : Received}
    (h : LoopDone (raws ++ [frame]) true r received) : LoopDone raws complete (frame :: r.1, r.2) received := by
  have hassoc : ∀ out, raws ++ [frame] ++ out = raws ++ frame :: out := fun out => (append_cons raws frame out).symm
  cases h with
  | «open» out cur done l hdone hback =>
    have hopen : LoopDone raws complete (frame :: out, some cur) ⟨true, complete || !(frame :: out).isEmpty, done ++ l⟩ :=
      .open (frame :: out) cur done l (hassoc out ▸ hdone) hback
    simpa using hopen
  | closed out done msg hdone hmsg =>
    have hclosed : LoopDone raws complete (frame :: out, none) ⟨false, complete || !(frame :: out).isEmpty, done ++ [msg]⟩ :=
      .closed (frame :: out) done msg (hassoc out ▸ hdone) hmsg
    simpa using hclosed

lemma LoopDone.of_none (hdone : List.Forall₂ Holds raws done) (hback : Back cur l) :
    LoopDone raws complete ([], some cur) ⟨true, complete, done ++ l⟩ := by
  have hopen : LoopDone raws complete ([], some cur) ⟨true, complete || !([] : List Bytes).isEmpty, done ++ l⟩ :=
    .open [] cur done l (by rwa [append_nil]) hback
  simpa using hopen

variable (pchMessageStart) in
lemma receiveLoop_done (rounds : ℕ) : ∀ (pch : Bytes) (complete : Bool) {raws : List Bytes} {done l : List CNetMessage}
    {cur : Bytes}, pch.length ≤ rounds →
    List.Forall₂ Holds raws done → Back cur l →
    ∃ r, receiveLoop pchMessageStart rounds pch complete (done ++ l) = .ok r ∧
      LoopDone raws complete (feed frameStep cur pch) r := by
  induction rounds with
  | zero =>
    intro pch complete raws done l cur hrounds hdone hback
    obtain rfl := eq_nil_of_length_eq_zero (Nat.le_zero.mp hrounds)
    exact ⟨_, rfl, .of_none hdone hback⟩
  | succ rounds ih =>
    intro pch complete raws done l cur hrounds hdone hback
    by_cases hpch : pch = []
    · rw [hpch]
      exact ⟨⟨true, complete, done ++ l⟩, rfl, .of_none hdone hback⟩
    obtain ⟨msg, hpart, hcurrent⟩ := exists_current pchMessageStart hdone hback
    have habsorbed : ∃ handled msg', (if !msg.in_data then msg.readHeader pch else msg.readData pch) = .ok (handled, msg') ∧
        Absorbed cur pch handled msg' := by
      cases hin : msg.in_data with
      | false => exact absorbed_readHeader hpart hin hpch
      | true => exact absorbed_readData hpart hin hpch
    obtain ⟨handled, msg', hread, habsorbed⟩ := habsorbed
    unfold receiveLoop
    rw [if_neg (fun h => hpch (eq_nil_of_length_eq_zero h)), hcurrent]
    dsimp only
    rw [getLast?_append, getLast?_singleton, some_or, getD_some, hread,
      dropLast_concat]
    cases habsorbed with
    | partly k _ hk hkle hpart' hfeed =>
      have hsmall : ¬(msg'.in_data && decide (msg'.hdr.nMessageSize.toNat > MAX_PROTOCOL_MESSAGE_LENGTH)) = true := by
        cases hpart' with
        | header _ hin => simp [hin]
        | data _ hsize _ _ hhdr => simp [hhdr, hsize]
      have hne : cur ++ pch.take k ≠ [] := by
        intro hnil
        have hlen := congrArg List.length hnil
        rw [length_append, length_take, length_nil] at hlen
        omega
      obtain ⟨r, hr, hloop⟩ := ih (pch.drop k) (complete || msg'.complete) (by rw [length_drop]; omega) hdone
        (Back.last hne hpart')
      refine ⟨r, ?_, ?_⟩
      · dsimp only
        rw [if_neg hsmall, hr]
      · rw [hpart'.not_complete, Bool.or_false] at hloop
        rw [← take_append_drop k pch, feed_append_some hfeed, nil_append]
        exact hloop
    | whole k _ hk hkle hholds hfeed =>
      have hsmall : ¬(msg'.in_data && decide (msg'.hdr.nMessageSize.toNat > MAX_PROTOCOL_MESSAGE_LENGTH)) = true := by
        have hsize := hholds.whole.size
        rw [← hholds.hdr] at hsize
        simp [hsize]
      obtain ⟨r, hr, hloop⟩ := ih (pch.drop k) (complete || msg'.complete) (by rw [length_drop]; omega)
        (rel_append hdone (List.Forall₂.cons hholds .nil)) Back.none
      rw [append_nil] at hr
      refine ⟨r, ?_, ?_⟩
      · dsimp only
        rw [if_neg hsmall, hr]
      · rw [hholds.complete, Bool.or_true] at hloop
        rw [← take_append_drop k pch, feed_append_some hfeed]
        exact hloop.cons
    | rejected k _ _ hkle hincomplete hhandled hfeed =>
      have hclosed : LoopDone raws complete ([], none) ⟨false, complete || !([] : List Bytes).isEmpty, done ++ [msg']⟩ :=
        .closed [] done msg' (by rwa [append_nil]) hincomplete
      rw [← take_append_drop k pch, feed_append_none hfeed]
      refine ⟨⟨false, complete, done ++ [msg']⟩, ?_, by simpa using hclosed⟩
      cases handled with
      | none => rfl
      | some handled =>
        obtain ⟨hin, hsize⟩ := hhandled.resolve_left (some_ne_none handled)
        dsimp only
        rw [if_pos (by simp [hin, hsize])]

/-- What a node has queued and what it is still receiving. -/
inductive NodeState (raws : List Bytes) : Option Bytes → ReceiveNode → Prop
  | open {node : ReceiveNode} {cur : Bytes} : node.hSocket = true → List.Forall₂ Holds raws node.vProcessMsg →
      Back cur node.vRecvMsg → NodeState raws (some cur) node
  | closed {node : ReceiveNode} : node.hSocket = false → List.Forall₂ Holds raws node.vProcessMsg →
      NodeState raws none node

lemma NodeState.init : NodeState [] (some []) ReceiveNode.init := .open rfl .nil .none

lemma splice (hdone : List.Forall₂ Holds raws done) (hl : ∀ msg ∈ l, msg.complete = false) :
    (done ++ l).takeWhile CNetMessage.complete = done ∧ (done ++ l).dropWhile CNetMessage.complete = l := by
  have htake : l.takeWhile CNetMessage.complete = [] ∧ l.dropWhile CNetMessage.complete = l := by
    cases l with
    | nil => exact ⟨rfl, rfl⟩
    | cons msg l =>
      have hmsg := hl msg mem_cons_self
      exact ⟨takeWhile_cons_of_neg (by simp [hmsg]), dropWhile_cons_of_neg (by simp [hmsg])⟩
  constructor
  · rw [takeWhile_append_of_pos (complete_of_forall₂ hdone), htake.1, append_nil]
  · rw [dropWhile_append_of_pos (complete_of_forall₂ hdone), htake.2]

variable (pchMessageStart) in
lemma NodeState.receive {state : Option Bytes} (h : NodeState raws state node) (pchBuf : Bytes) :
    ∃ node', node.receive pchMessageStart pchBuf = .ok node' ∧
      match state with
      | none => node' = node
      | some cur => NodeState (raws ++ (feed frameStep cur pchBuf).1) (feed frameStep cur pchBuf).2 node' := by
  unfold ReceiveNode.receive
  cases h with
  | closed hsocket =>
    rw [hsocket]
    exact ⟨node, rfl, rfl⟩
  | @«open» _ cur hsocket hprocess hback =>
    obtain ⟨r, hr, hloop⟩ := receiveLoop_done pchMessageStart pchBuf.length pchBuf false le_rfl .nil hback
    rw [nil_append] at hr
    unfold receiveMsgBytes
    rw [hsocket, hr]
    simp only [Bool.not_true, Bool.false_eq_true, if_false]
    generalize feed frameStep cur pchBuf = fed at hloop
    cases hloop with
    | «open» out cur' done l hdone hback' =>
      rw [nil_append] at hdone
      obtain ⟨htake, hdrop⟩ := splice hdone hback'.incomplete
      cases out with
      | nil =>
        cases hdone
        refine ⟨_, rfl, .open rfl ?_ hback'⟩
        rw [append_nil]
        exact hprocess
      | cons frame out =>
        refine ⟨_, rfl, .open rfl ?_ ?_⟩
        · dsimp only
          rw [htake]
          exact rel_append hprocess hdone
        · dsimp only
          rw [hdrop]
          exact hback'
    | closed out done msg hdone hmsg =>
      rw [nil_append] at hdone
      obtain ⟨htake, hdrop⟩ := splice hdone (l := [msg]) (fun msg' hmsg' => by rw [mem_singleton.mp hmsg', hmsg])
      cases out with
      | nil =>
        cases hdone
        refine ⟨_, rfl, .closed rfl ?_⟩
        rw [append_nil]
        exact hprocess
      | cons frame out =>
        refine ⟨_, rfl, .closed rfl ?_⟩
        dsimp only
        rw [htake]
        exact rel_append hprocess hdone

variable (pchMessageStart) in
lemma NodeState.receiveAll_closed (chunks : List Bytes) (h : NodeState raws none node) :
    node.receiveAll pchMessageStart chunks = .ok node := by
  induction chunks with
  | nil => rfl
  | cons pchBuf chunks ih =>
    obtain ⟨node₁, hnode₁, heq⟩ := h.receive pchMessageStart pchBuf
    unfold ReceiveNode.receiveAll
    rw [hnode₁, heq]
    exact ih

variable (pchMessageStart) in
lemma NodeState.receiveAll (chunks : List Bytes) : ∀ {raws : List Bytes} {cur : Bytes} {node : ReceiveNode},
    NodeState raws (some cur) node → ∃ node', node.receiveAll pchMessageStart chunks = .ok node' ∧
      NodeState (raws ++ (feed frameStep cur chunks.flatten).1) (feed frameStep cur chunks.flatten).2 node' := by
  induction chunks with
  | nil =>
    intro raws cur node h
    refine ⟨node, rfl, ?_⟩
    rw [flatten_nil, feed_nil, append_nil]
    exact h
  | cons pchBuf chunks ih =>
    intro raws cur node h
    obtain ⟨node₁, hnode₁, hstate⟩ := h.receive pchMessageStart pchBuf
    rw [flatten_cons]
    unfold ReceiveNode.receiveAll
    rw [hnode₁]
    dsimp only at hstate ⊢
    rcases hfeed : feed frameStep cur pchBuf with ⟨out, _ | cur₁⟩
    · rw [hfeed] at hstate
      rw [feed_append_none hfeed]
      exact ⟨node₁, hstate.receiveAll_closed pchMessageStart chunks, hstate⟩
    · rw [hfeed] at hstate
      obtain ⟨node', hnode', hstate'⟩ := ih hstate
      refine ⟨node', hnode', ?_⟩
      rw [feed_append_some hfeed]
      simpa using hstate'

end Chunks

end MutableBitcoin
