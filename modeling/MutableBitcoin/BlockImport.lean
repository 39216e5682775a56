import MutableBitcoin.BlockAssembler
import MutableBitcoin.StreamedBlock

/-!
# Importing a block file

`LoadExternalBlockFile` searches a file for records. Each block that is read goes to `AcceptBlock`
or waits for its parent.
-/

namespace MutableBitcoin
open Lib List CBufferedFile

/-- A position in the block files. -/
structure CDiskBlockPos where
  nFile : ℕ
  nPos : ℕ
deriving DecidableEq

/-- What `AcceptBlock` returns, and `state.IsError()`. -/
structure AcceptAnswer where
  accepted : Bool
  isError : Bool

section Import

variable {sha256 : Bytes → Uint256} {Node : Type}

variable (sha256 Node) in
/-- The node as far as the import asks it. -/
structure ImportContext where
  messageStart : BaseBlob 4
  hashGenesisBlock : Uint256
  /-- `mapBlockIndex` has an entry. -/
  hasEntry : Node → Uint256 → Bool
  /-- The entry has `BLOCK_HAVE_DATA`. -/
  haveData : Node → Uint256 → Bool
  acceptBlock : CBlock sha256 → Option CDiskBlockPos → Node → AcceptAnswer × Node
  activateBestChain : Node → Bool × Node
  readBlockFromDisk : Node → CDiskBlockPos → Option (CBlock sha256)

/-- What becomes of a block that was read. -/
inductive Handling where
  | acceptBlock
  | unknownParent
  | alreadyStored
  | notKept
deriving DecidableEq

variable (sha256 Node) in
/-- The trace of an import: the blocks that were read, with the node that looked them up, and the records that could not be
read, with the file after the attempt. -/
inductive ImportEvent where
  | parsed (nBlockPos nEnd : ℕ) (block : CBlock sha256) (node : Node) (handling : Handling)
  | damaged (nHeaderPos : ℕ) (blkdat : CBufferedFile)

def ImportEvent.handling? : ImportEvent sha256 Node → Option Handling
  | .parsed _ _ _ _ handling => some handling
  | .damaged _ _ => none

variable (sha256 Node) in
/-- The variables of the loop. -/
structure ImportState where
  blkdat : CBufferedFile
  nRewind : ℕ
  dbp : Option CDiskBlockPos
  node : Node
  /-- A multimap; blocks with the same parent stand in the order of insertion. -/
  mapBlocksUnknownParent : List (Uint256 × CDiskBlockPos)
  nLoaded : ℕ
  trace : List (ImportEvent sha256 Node)

/-- How an import ends. -/
inductive ImportEnd where
  | endOfFile
  | noHeader
  | stateError
  | activationFailed
  | hashAborts
  | undefinedRead
  | endlessLoop
deriving DecidableEq

/-- Whether the loop goes on. -/
inductive Flow where
  | next
  | leave (ended : ImportEnd)

/-- A failure that a `catch` sees. -/
def BufferFailure.isException : BufferFailure → Bool
  | .outOfBounds | .endlessLoop => false
  | _ => true

def CBufferedFile.device (nSize : ℕ) (b : CBufferedFile) : Except BufferFailure Bytes × CBufferedFile :=
  let r := b.read nSize
  match r.thrown with
  | some e => (.error e, r.file)
  | none => (.ok r.pch, r.file)

variable (ctx : ImportContext sha256 Node)

namespace ImportContext

/-- The children of one parent, which `equal_range` has found. -/
def acceptChildren : List CDiskBlockPos → List Uint256 × Node × ℕ → List Uint256 × Node × ℕ
  | [], r => r
  | pos :: range, (queue, node, nLoaded) =>
    match ctx.readBlockFromDisk node pos with
    | none => acceptChildren range (queue, node, nLoaded)
    | some pblockrecursive =>
      let r := ctx.acceptBlock pblockrecursive (some pos) node
      if r.1.accepted then acceptChildren range (queue ++ [pblockrecursive.getHash sha256], r.2, nLoaded + 1)
      else acceptChildren range (queue, r.2, nLoaded)

/-- The earlier encountered successors of a block, within `fuel` iterations. -/
def processQueue : ℕ → List Uint256 → List (Uint256 × CDiskBlockPos) → Node → ℕ →
    Option (List (Uint256 × CDiskBlockPos) × Node × ℕ)
  | _, [], unknown, node, nLoaded => some (unknown, node, nLoaded)
  | 0, _ :: _, _, _, _ => none
  | fuel + 1, head :: queue, unknown, node, nLoaded =>
    let range := (unknown.filter (fun p => p.1 = head)).map Prod.snd
    let r := ctx.acceptChildren range (queue, node, nLoaded)
    processQueue fuel r.1 (unknown.filter (fun p => p.1 ≠ head)) r.2.1 r.2.2

/-- What the loop does with a block that it has read up to `nEnd`. -/
def processBlock (block : CBlock sha256) (nBlockPos : ℕ) (st : ImportState sha256 Node) : Flow × ImportState sha256 Node :=
  let hash := block.getHash sha256
  let parsed := ImportEvent.parsed nBlockPos st.blkdat.nReadPos block st.node
  if hash ≠ ctx.hashGenesisBlock ∧ ctx.hasEntry st.node block.hashPrevBlock = false then
    match st.dbp with
    | some pos =>
      (.next, { st with
        mapBlocksUnknownParent := st.mapBlocksUnknownParent ++ [(block.hashPrevBlock, pos)]
        trace := parsed .unknownParent :: st.trace })
    | none => (.next, { st with trace := parsed .notKept :: st.trace })
  else
    let stored := ctx.hasEntry st.node hash && ctx.haveData st.node hash
    let answer := if stored then (⟨false, false⟩, st.node) else ctx.acceptBlock block st.dbp st.node
    let st := { st with
      node := answer.2
      nLoaded := if answer.1.accepted then st.nLoaded + 1 else st.nLoaded
      trace := parsed (if stored then .alreadyStored else .acceptBlock) :: st.trace }
    if answer.1.isError then (.leave .stateError, st)
    else
      let activated := if hash = ctx.hashGenesisBlock then ctx.activateBestChain st.node else (true, st.node)
      let st := { st with node := activated.2 }
      if activated.1 = false then (.leave .activationFailed, st)
      else
        match ctx.processQueue (st.mapBlocksUnknownParent.length + 1) [hash] st.mapBlocksUnknownParent st.node st.nLoaded with
        | none => (.leave .endlessLoop, st)
        | some (unknown, node, nLoaded) =>
          (.next, { st with mapBlocksUnknownParent := unknown, node := node, nLoaded := nLoaded })

/-- The block behind a header that was found at `nHeaderPos`. -/
def readRecord (nHeaderPos nSize : ℕ) (st : ImportState sha256 Node) : Flow × ImportState sha256 Node :=
  let nBlockPos := st.blkdat.nReadPos
  let dbp := st.dbp.map (fun pos => { pos with nPos := nBlockPos % 2 ^ 32 })
  let blkdat := (st.blkdat.setLimit ((nBlockPos + nSize) % 2 ^ 64)).2
  let blkdat := (blkdat.setPos nBlockPos).2
  let st := { st with dbp := dbp }
  match (Streamed.readBlock sha256).onDevice device blkdat with
  | (.error (.inl .hashAborts), blkdat) => (.leave .hashAborts, { st with blkdat := blkdat })
  | (.error (.inl _), blkdat) => (.next, { st with blkdat := blkdat, trace := .damaged nHeaderPos blkdat :: st.trace })
  | (.error (.inr e), blkdat) =>
    if e.isException then (.next, { st with blkdat := blkdat, trace := .damaged nHeaderPos blkdat :: st.trace })
    else (.leave .undefinedRead, { st with blkdat := blkdat })
  | (.ok block, blkdat) => ctx.processBlock block nBlockPos { st with blkdat := blkdat, nRewind := blkdat.nReadPos }

/-- One iteration. An exception in the first `try` means that there is no header any more. -/
def iteration (st : ImportState sha256 Node) : Flow × ImportState sha256 Node :=
  let blkdat := (st.blkdat.setPos st.nRewind).2
  let st := { st with nRewind := (st.nRewind + 1) % 2 ^ 64 }
  let blkdat := (blkdat.setLimit (2 ^ 64 - 1)).2
  let noHeader (e : BufferFailure) (blkdat : CBufferedFile) : Flow × ImportState sha256 Node :=
    (.leave (if e.isException then .noHeader else .undefinedRead), { st with blkdat := blkdat })
  match blkdat.findByte (ctx.messageStart.data.headD 0) with
  | (some e, blkdat) => noHeader e blkdat
  | (none, blkdat) =>
    let nHeaderPos := blkdat.nReadPos
    let st := { st with nRewind := (nHeaderPos + 1) % 2 ^ 64 }
    match blkdat.device 4 with
    | (.error e, blkdat) => noHeader e blkdat
    | (.ok buf, blkdat) =>
      if buf ≠ ctx.messageStart.data then (.next, { st with blkdat := blkdat })
      else
        match blkdat.device 4 with
        | (.error e, blkdat) => noHeader e blkdat
        | (.ok bytes, blkdat) =>
          let nSize := leValue bytes
          if nSize < 80 ∨ nSize > MAX_BLOCK_SERIALIZED_SIZE then (.next, { st with blkdat := blkdat })
          else ctx.readRecord nHeaderPos nSize { st with blkdat := blkdat }

/-- The loop over the file, within `fuel` iterations. -/
def importLoop : ℕ → ImportState sha256 Node → ImportEnd × ImportState sha256 Node
  | 0, st => (.endlessLoop, st)
  | fuel + 1, st =>
    if st.blkdat.eof then (.endOfFile, st)
    else
      match ctx.iteration st with
      | (.leave ended, st) => (ended, st)
      | (.next, st) => importLoop fuel st

/-- The state before the loop of `LoadExternalBlockFile`. -/
def importStart (contents : Bytes) (dbp : Option CDiskBlockPos) (node : Node)
    (mapBlocksUnknownParent : List (Uint256 × CDiskBlockPos)) : ImportState sha256 Node where
  blkdat := .make contents (2 * MAX_BLOCK_SERIALIZED_SIZE) (MAX_BLOCK_SERIALIZED_SIZE + 8)
  nRewind := 0
  dbp := dbp
  node := node
  mapBlocksUnknownParent := mapBlocksUnknownParent
  nLoaded := 0
  trace := []

def loadExternalBlockFile (contents : Bytes) (dbp : Option CDiskBlockPos) (node : Node)
    (mapBlocksUnknownParent : List (Uint256 × CDiskBlockPos)) : ImportEnd × ImportState sha256 Node :=
  ctx.importLoop (contents.length + 1) (importStart contents dbp node mapBlocksUnknownParent)

end ImportContext

section Device

open CBufferedFile

/-- The buffered file as the import makes it. -/
structure ImportBuffer (contents : Bytes) (b : CBufferedFile) : Prop where
  sound : Sound b
  contents : b.src.contents = contents
  size : b.size = 2 * MAX_BLOCK_SERIALIZED_SIZE
  nRewind : b.nRewind = MAX_BLOCK_SERIALIZED_SIZE + 8

variable {contents : Bytes} {b b' : CBufferedFile}

lemma ImportBuffer.advance (h : ImportBuffer contents b) (hsound : Sound b') (hadv : Advances b b') : ImportBuffer contents b' :=
  ⟨hsound, hadv.contents.trans h.contents, hadv.size.trans h.size, hadv.nRewind.trans h.nRewind⟩

lemma ImportBuffer.device_spec (h : ImportBuffer contents b) {nSize : ℕ} (hlimit : b.nReadPos + nSize ≤ b.nReadLimit)
    (hroom : nSize + 8 ≤ MAX_BLOCK_SERIALIZED_SIZE) :
    (∃ b', b.device nSize = (.ok (segment contents b.nReadPos (b.nReadPos + nSize)), b') ∧ Sound b' ∧ Advances b b' ∧
      b'.nReadPos = b.nReadPos + nSize) ∨
    ∃ b', b.device nSize = (.error .endOfFile, b') ∧ contents.length < b.nReadPos + nSize := by
  have hsize := h.size
  have hrewind := h.nRewind
  unfold MAX_BLOCK_SERIALIZED_SIZE at hsize hrewind hroom
  unfold device
  rcases h.sound.read_spec (show nSize < 2 ^ 63 by omega) with ⟨-, hpast⟩ | ⟨-, hlarge⟩ | ⟨-, -, hsound, hadv, hpch, hended⟩
  · omega
  · omega
  · rw [h.contents] at hpch hended
    rcases hended with ⟨hnone, hat⟩ | ⟨hsome, hshort, -, -⟩
    · left
      dsimp only
      rw [hnone, hpch, hat]
      exact ⟨_, rfl, hsound, hadv, hat⟩
    · right
      dsimp only
      rw [hsome]
      exact ⟨_, rfl, hshort⟩

lemma ImportBuffer.device_keeps (h : ImportBuffer contents b) {nSize : ℕ} (hobject : nSize < 2 ^ 63) :
    Sound (b.device nSize).2 ∧ Advances b (b.device nSize).2 ∧
      ∀ e, (b.device nSize).1 = .error e → e.isException = true := by
  unfold device
  rcases h.sound.read_spec hobject with ⟨hread, -⟩ | ⟨hread, -⟩ | ⟨-, -, hsound, hadv, -, hended⟩
  · rw [hread]
    exact ⟨h.sound, Advances.refl b, fun e he => Except.error.inj he ▸ rfl⟩
  · rw [hread]
    exact ⟨h.sound, Advances.refl b, fun e he => Except.error.inj he ▸ rfl⟩
  · dsimp only
    rcases hended with ⟨hnone, -⟩ | ⟨hsome, -⟩
    · rw [hnone]
      exact ⟨hsound, hadv, fun e he => nomatch he⟩
    · rw [hsome]
      exact ⟨hsound, hadv, fun e he => Except.error.inj he ▸ rfl⟩

end Device

section Headers

/-- A magic and a possible size at `q`. -/
structure HeaderAt (messageStart : BaseBlob 4) (contents : Bytes) (q nSize : ℕ) : Prop where
  magic : segment contents q (q + 4) = messageStart.data
  fits : q + 8 ≤ contents.length
  size : leValue (segment contents (q + 4) (q + 8)) = nSize
  least : 80 ≤ nSize
  most : nSize ≤ MAX_BLOCK_SERIALIZED_SIZE

/-- A record at `q` whose bytes are read as a block to the last one. -/
structure CompleteRecord (messageStart : BaseBlob 4) (contents : Bytes) (q nSize : ℕ) (block : CBlock sha256) : Prop
    extends HeaderAt messageStart contents q nSize where
  ends : q + 8 + nSize ≤ contents.length
  block : CBlock.decode sha256 (segment contents (q + 8) (q + 8 + nSize)) = .ok (block, [])

lemma completeRecord_append (messageStart : BaseBlob 4) (front behind : Bytes) {body : Bytes} {block : CBlock sha256}
    (hblock : Decodes (CBlock.decode sha256) body block) (hleast : 80 ≤ body.length)
    (hmost : body.length ≤ MAX_BLOCK_SERIALIZED_SIZE) :
    CompleteRecord messageStart (front ++ (messageStart.data ++ (leBytes 4 body.length ++ (body ++ behind))))
      front.length body.length block := by
  have hmagic := messageStart.length_data
  have hsize := length_leBytes 4 body.length
  have hcut : ∀ (a b c : Bytes) (p q : ℕ), a.length = p → p + b.length = q →
      segment (a ++ (b ++ c)) p q = b := by
    rintro a b c p q rfl rfl
    rw [CBufferedFile.segment, drop_left, Nat.add_sub_cancel_left, take_left]
  refine ⟨⟨?_, ?_, ?_, hleast, hmost⟩, ?_, ?_⟩
  · exact hcut _ _ _ _ _ rfl (by omega)
  · simp only [length_append]
    omega
  · rw [← append_assoc, hcut (front ++ messageStart.data) (leBytes 4 body.length) _ _ _ (by rw [length_append]; omega) (by omega)]
    exact leValue_leBytes (by unfold MAX_BLOCK_SERIALIZED_SIZE at hmost; omega)
  · simp only [length_append]
    omega
  · rw [← append_assoc, ← append_assoc, hcut (front ++ messageStart.data ++ leBytes 4 body.length) body _ _ _
      (by rw [length_append, length_append]; omega) rfl]
    have h := hblock []
    rwa [append_nil] at h

/-- What holds at the head of the loop. -/
structure ImportState.Scans (contents : Bytes) (st : ImportState sha256 Node) : Prop where
  buffer : ImportBuffer contents st.blkdat
  rewind : st.nRewind ≤ st.blkdat.nSrcPos

variable {messageStart : BaseBlob 4} {contents : Bytes} {st : ImportState sha256 Node}

lemma HeaderAt.first {q nSize : ℕ} (h : HeaderAt messageStart contents q nSize) :
    contents[q]? = some (messageStart.data.headD 0) := by
  have hlength := messageStart.length_data
  obtain ⟨c, rest, hdata⟩ := exists_cons_of_length_pos (show 0 < messageStart.data.length by omega)
  have hget := congrArg (·[0]?) h.magic
  rw [CBufferedFile.segment, getElem?_take_of_lt (by omega), getElem?_drop, hdata] at hget
  rw [hdata]
  exact hget

lemma iteration_cases (ctx : ImportContext sha256 Node) (h : st.Scans contents) :
    ∃ start, st.nRewind ≤ start ∧ (st.blkdat.nSrcPos ≤ st.nRewind + (MAX_BLOCK_SERIALIZED_SIZE + 8) → start = st.nRewind) ∧
      ((∃ st', ctx.iteration st = (.leave .noHeader, st') ∧ st'.trace = st.trace ∧
          ∀ q nSize, start ≤ q → ¬HeaderAt ctx.messageStart contents q nSize) ∨
        ∃ q b', start ≤ q ∧ (∀ p nSize, start ≤ p → p < q → ¬HeaderAt ctx.messageStart contents p nSize) ∧
          ImportBuffer contents b' ∧ q < b'.nReadPos ∧ b'.nReadLimit = 2 ^ 64 - 1 ∧
          b'.nSrcPos ≤ q + (MAX_BLOCK_SERIALIZED_SIZE + 8) ∧
          ((ctx.iteration st = (.next, { st with blkdat := b', nRewind := q + 1 }) ∧ b'.nReadPos ≤ q + 8 ∧
              ∀ nSize, ¬HeaderAt ctx.messageStart contents q nSize) ∨
            ∃ nSize, HeaderAt ctx.messageStart contents q nSize ∧ b'.nReadPos = q + 8 ∧
              ctx.iteration st = ctx.readRecord q nSize { st with blkdat := b', nRewind := q + 1 })) := by
  have hsize := h.buffer.size
  have hpromise := h.buffer.nRewind
  have hlength := h.buffer.sound.length_lt
  have hsrc := h.buffer.sound.srcPos
  have hrewind := h.rewind
  rw [h.buffer.contents] at hlength hsrc
  unfold MAX_BLOCK_SERIALIZED_SIZE at hsize hpromise
  set start := max st.nRewind (st.blkdat.nSrcPos - st.blkdat.nRewind) with hstart
  have hset := setPos_of_le (show st.nRewind + st.blkdat.nRewind < 2 ^ 64 by omega) (by omega) hrewind
  have hlimit : ({ st.blkdat with nReadPos := start } : CBufferedFile).setLimit (2 ^ 64 - 1) =
      (true, { st.blkdat with nReadPos := start, nReadLimit := 2 ^ 64 - 1 }) :=
    if_neg (show ¬2 ^ 64 - 1 < start by omega)
  have hmoved := h.buffer.sound.moved (q := start) (by omega) (by omega)
  have hbuffer : ImportBuffer contents { st.blkdat with nReadPos := start, nReadLimit := 2 ^ 64 - 1 } :=
    ⟨{ hmoved with }, h.buffer.contents, h.buffer.size, h.buffer.nRewind⟩
  refine ⟨start, le_max_left _ _, fun hback => ?_, ?_⟩
  · unfold MAX_BLOCK_SERIALIZED_SIZE at hback
    omega
  unfold ImportContext.iteration
  dsimp only
  rw [hset, ← hstart, hlimit]
  dsimp only
  generalize hb₁ : ({ st.blkdat with nReadPos := start, nReadLimit := 2 ^ 64 - 1 } : CBufferedFile) = b₁ at hbuffer
  have hread₁ : b₁.nReadPos = start := hb₁ ▸ rfl
  have hlimit₁ : b₁.nReadLimit = 2 ^ 64 - 1 := hb₁ ▸ rfl
  have hsrc₁ : b₁.nSrcPos = st.blkdat.nSrcPos := hb₁ ▸ rfl
  have hfinds := hbuffer.sound.findByte_spec (ctx.messageStart.data.headD 0)
  generalize b₁.findByte (ctx.messageStart.data.headD 0) = r at hfinds
  obtain ⟨thrown, b₂⟩ := r
  obtain ⟨hsound₂, hadv₂, hpassed, hended⟩ := hfinds
  dsimp only at hsound₂ hadv₂ hpassed hended
  rw [hbuffer.contents, hread₁] at hpassed
  rw [hbuffer.contents] at hended
  have hbuffer₂ := hbuffer.advance hsound₂ hadv₂
  have hbefore : ∀ p nSize, start ≤ p → p < b₂.nReadPos → ¬HeaderAt ctx.messageStart contents p nSize :=
    fun p nSize hp hlt hheader => hpassed p hp hlt hheader.first
  rcases hended with ⟨rfl, hfound, hlt₂⟩ | ⟨rfl, hend, -⟩
  · have hle₂ := hsound₂.srcPos
    rw [hbuffer₂.contents] at hle₂
    have hwrap : (b₂.nReadPos + 1) % 2 ^ 64 = b₂.nReadPos + 1 := Nat.mod_eq_of_lt (by omega)
    have hstart₂ : start ≤ b₂.nReadPos := hread₁ ▸ hadv₂.readPos
    have hahead : ∀ b', CBufferedFile.Advances b₂ b' → b'.nReadPos ≤ b₂.nReadPos + 8 →
        b'.nSrcPos ≤ b₂.nReadPos + (MAX_BLOCK_SERIALIZED_SIZE + 8) := by
      intro b' hadv' hnear
      have hall := (hadv₂.trans hadv').ahead
      rw [hsrc₁, hbuffer.size, hbuffer.nRewind] at hall
      unfold MAX_BLOCK_SERIALIZED_SIZE at hall ⊢
      omega
    dsimp only
    rw [hwrap]
    rcases hbuffer₂.device_spec (show b₂.nReadPos + 4 ≤ b₂.nReadLimit by rw [hadv₂.nReadLimit, hlimit₁]; omega) (by decide) with
      ⟨b₃, hdevice, hsound₃, hadv₃, hread₃⟩ | ⟨b₃, hdevice, hshort⟩
    · rw [hdevice]
      dsimp only
      have hbuffer₃ := hbuffer₂.advance hsound₃ hadv₃
      by_cases hmagic : segment contents b₂.nReadPos (b₂.nReadPos + 4) = ctx.messageStart.data
      · rw [if_neg (not_not.mpr hmagic)]
        rcases hbuffer₃.device_spec
            (show b₃.nReadPos + 4 ≤ b₃.nReadLimit by rw [hadv₃.nReadLimit, hadv₂.nReadLimit, hlimit₁, hread₃]; omega) (by decide) with
          ⟨b₄, hdevice₄, hsound₄, hadv₄, hread₄⟩ | ⟨b₄, hdevice₄, hshort⟩
        · right
          rw [hdevice₄, hread₃, show b₂.nReadPos + 4 + 4 = b₂.nReadPos + 8 from rfl]
          dsimp only
          have hfile := hsound₄.readPos.trans hsound₄.srcPos
          have hbuffer₄ := hbuffer₃.advance hsound₄ hadv₄
          rw [hbuffer₄.contents] at hfile
          refine ⟨b₂.nReadPos, b₄, hstart₂, hbefore, hbuffer₄, by omega, ?_, hahead _ (hadv₃.trans hadv₄) (by omega), ?_⟩
          · rw [hadv₄.nReadLimit, hadv₃.nReadLimit, hadv₂.nReadLimit, hlimit₁]
          · split_ifs with hrange
            · refine Or.inl ⟨rfl, by omega, fun nSize hheader => ?_⟩
              have hsize := hheader.size
              have hleast := hheader.least
              have hmost := hheader.most
              omega
            · exact Or.inr ⟨_, ⟨hmagic, by omega, rfl, by omega, by omega⟩, by omega, rfl⟩
        · left
          rw [hdevice₄]
          refine ⟨_, rfl, rfl, fun q nSize hq hheader => ?_⟩
          have hfits := hheader.fits
          exact hbefore q nSize hq (by omega) hheader
      · right
        rw [if_pos hmagic]
        refine ⟨b₂.nReadPos, b₃, hstart₂, hbefore, hbuffer₃, by omega, ?_, hahead _ hadv₃ (by omega), Or.inl ⟨rfl, by omega, ?_⟩⟩
        · rw [hadv₃.nReadLimit, hadv₂.nReadLimit, hlimit₁]
        · exact fun nSize hheader => hmagic hheader.magic
    · left
      rw [hdevice]
      refine ⟨_, rfl, rfl, fun q nSize hq hheader => ?_⟩
      have hfits := hheader.fits
      exact hbefore q nSize hq (by omega) hheader
  · left
    refine ⟨_, rfl, rfl, fun q nSize hq hheader => ?_⟩
    have hfits := hheader.fits
    exact hbefore q nSize hq (by omega) hheader

open CBufferedFile in
/-- The buffer delivers the bytes `l` up to the limit. -/
structure Feeds (contents : Bytes) (last : ℕ) (b : CBufferedFile) (l : Bytes) : Prop where
  buffer : ImportBuffer contents b
  limit : b.nReadLimit = last
  ends : last ≤ contents.length
  left : b.nReadPos + l.length = last
  bytes : l = segment contents b.nReadPos last

lemma Feeds.device_spec {last n : ℕ} {b : CBufferedFile} {l : Bytes} (h : Feeds contents last b l) (hn : n ≤ l.length)
    (hroom : n + 8 ≤ MAX_BLOCK_SERIALIZED_SIZE) : ∃ b', b.device n = (.ok (l.take n), b') ∧ Feeds contents last b' (l.drop n) := by
  have hleft := h.left
  have hends := h.ends
  rcases h.buffer.device_spec (show b.nReadPos + n ≤ b.nReadLimit by rw [h.limit]; omega) hroom with
    ⟨b', hdevice, hsound, hadv, hread⟩ | ⟨b', hdevice, hshort⟩
  · have hsplit := @CBufferedFile.segment_append contents _ _ last (Nat.le_add_right b.nReadPos n) (by omega)
    have hlen : (segment contents b.nReadPos (b.nReadPos + n)).length = n := by
      rw [length_segment (by omega)]
      omega
    refine ⟨b', ?_, h.buffer.advance hsound hadv, hadv.nReadLimit.trans h.limit, hends, ?_, ?_⟩
    · rw [hdevice, h.bytes, ← hsplit, take_left' hlen]
    · rw [length_drop, hread]
      omega
    · rw [h.bytes, ← hsplit, drop_left' hlen, hread]
  · omega

lemma onDevice_readBlock {last : ℕ} {b : CBufferedFile} {l rest : Bytes} {block : CBlock sha256} (h : Feeds contents last b l)
    (hlength : l.length ≤ MAX_BLOCK_SERIALIZED_SIZE) (hdecode : CBlock.decode sha256 l = .ok (block, rest)) :
    ∃ b', (Streamed.readBlock sha256).onDevice device b = (.ok block, b') ∧ Feeds contents last b' rest := by
  rw [← Streamed.agrees_readBlock l] at hdecode
  obtain ⟨next, hnext⟩ : ∃ next : Bytes → Bytes → Streamed.Reader (CBlock sha256),
      Streamed.readBlock sha256 = .read 4 fun bytes => .read 32 (next bytes) := ⟨_, rfl⟩
  rw [hnext] at hdecode ⊢
  obtain ⟨hfour, hdecode⟩ := ReadProgram.onList_read hdecode
  obtain ⟨b₁, hdevice₁, h₁⟩ := h.device_spec hfour (by decide)
  obtain ⟨hhash, hdecode⟩ := ReadProgram.onList_read hdecode
  obtain ⟨b₂, hdevice₂, h₂⟩ := h₁.device_spec hhash (by decide)
  rw [ReadProgram.onDevice_read hdevice₁, ReadProgram.onDevice_read hdevice₂]
  have hsmall : ((l.drop 4).drop 32).length + 8 ≤ MAX_BLOCK_SERIALIZED_SIZE := by
    rw [length_drop, length_drop]
    rw [length_drop] at hhash
    omega
  obtain ⟨b', hrun, hb', -⟩ := ReadProgram.onDevice_of_onList
    (R := fun b l => Feeds contents last b l ∧ l.length + 8 ≤ MAX_BLOCK_SERIALIZED_SIZE)
    (fun n d l hR hn => by
      obtain ⟨d', hdevice, hfeeds⟩ := hR.1.device_spec hn (by omega)
      refine ⟨d', hdevice, hfeeds, ?_⟩
      rw [length_drop]
      omega) ⟨h₂, hsmall⟩ hdecode
  exact ⟨b', hrun, hb'⟩

lemma readRecord_cases (ctx : ImportContext sha256 Node) (st : ImportState sha256 Node) {q nSize : ℕ}
    (hbuffer : ImportBuffer contents st.blkdat)
    (hread : st.blkdat.nReadPos = q + 8) (hback : st.blkdat.nSrcPos ≤ q + (MAX_BLOCK_SERIALIZED_SIZE + 8))
    (hsize : nSize ≤ MAX_BLOCK_SERIALIZED_SIZE) :
    ∃ b' dbp, (dbp = none ↔ st.dbp = none) ∧ ImportBuffer contents b' ∧ q + 8 ≤ b'.nReadPos ∧
      (b'.nSrcPos = st.blkdat.nSrcPos ∨ b'.nSrcPos ≤ b'.nReadPos + (MAX_BLOCK_SERIALIZED_SIZE - 8)) ∧
      ((ctx.readRecord q nSize st = (.leave .hashAborts, { st with blkdat := b', dbp := dbp }) ∨
          ctx.readRecord q nSize st = (.next, { st with blkdat := b', dbp := dbp, trace := .damaged q b' :: st.trace })) ∧
          (∀ block : CBlock sha256, ¬CompleteRecord ctx.messageStart contents q nSize block) ∨
        ∃ block, ctx.readRecord q nSize st =
            ctx.processBlock block (q + 8) { st with blkdat := b', nRewind := b'.nReadPos, dbp := dbp } ∧
          ∀ block', CompleteRecord ctx.messageStart contents q nSize block' → block = block' ∧ b'.nReadPos = q + 8 + nSize) := by
  have hlength := hbuffer.sound.length_lt
  have hsrc := hbuffer.sound.srcPos
  have hle := hbuffer.sound.readPos
  unfold MAX_BLOCK_SERIALIZED_SIZE at hback hsize
  have hwrap : (q + 8 + nSize) % 2 ^ 64 = q + 8 + nSize := Nat.mod_eq_of_lt (by omega)
  have hlimit : st.blkdat.setLimit (q + 8 + nSize) = (true, { st.blkdat with nReadLimit := q + 8 + nSize }) :=
    if_neg (by omega)
  unfold ImportContext.readRecord
  rw [hread]
  dsimp only
  rw [hwrap, hlimit]
  dsimp only
  generalize hb₁ : ({ st.blkdat with nReadLimit := q + 8 + nSize } : CBufferedFile) = b₁
  have hbuffer₁ : ImportBuffer contents b₁ := hb₁ ▸ ⟨{ hbuffer.sound with }, hbuffer.contents, hbuffer.size, hbuffer.nRewind⟩
  have hread₁ : b₁.nReadPos = q + 8 := hb₁ ▸ hread
  have hsrc₁ : b₁.nSrcPos = st.blkdat.nSrcPos := hb₁ ▸ rfl
  have hlimit₁ : b₁.nReadLimit = q + 8 + nSize := hb₁ ▸ rfl
  have hset : (b₁.setPos (q + 8)).2 = b₁ := by
    have hsize₁ := hbuffer₁.nRewind
    unfold MAX_BLOCK_SERIALIZED_SIZE at hsize₁
    rw [setPos_of_le (by omega) (by omega) (by omega), max_eq_left (by omega), ← hread₁]
  rw [hset]
  have hcomplete : ∀ block : CBlock sha256, CompleteRecord ctx.messageStart contents q nSize block → ∃ b',
      (Streamed.readBlock sha256).onDevice device b₁ = (.ok block, b') ∧ b'.nReadPos = q + 8 + nSize := by
    intro block hrecord
    have hlen := length_segment (p := q + 8) hrecord.ends
    obtain ⟨b', hrun, hfed⟩ := onDevice_readBlock
      (show Feeds contents (q + 8 + nSize) b₁ _ from
        ⟨hbuffer₁, hlimit₁, hrecord.ends, by rw [hlen, hread₁]; omega, by rw [hread₁]⟩)
      (by rw [hlen]; unfold MAX_BLOCK_SERIALIZED_SIZE; omega) hrecord.block
    exact ⟨b', hrun, hfed.left⟩
  have hdevice : ∀ n b, n ≤ MAX_SIZE → CBufferedFile.Sound b ∧ CBufferedFile.Advances b₁ b →
      (CBufferedFile.Sound (b.device n).2 ∧ CBufferedFile.Advances b₁ (b.device n).2) ∧
        ∀ e, (b.device n).1 = .error e → e.isException = true := by
    intro n b hn hb
    obtain ⟨hsound, hadv, hfails⟩ := (hbuffer₁.advance hb.1 hb.2).device_keeps
      (show n < 2 ^ 63 by unfold MAX_SIZE at hn; omega)
    exact ⟨⟨hsound, hb.2.trans hadv⟩, hfails⟩
  obtain ⟨⟨hsound, hadv⟩, hexception⟩ :=
    (@Streamed.modest_readBlock sha256).onDevice_keeps hdevice ⟨hbuffer₁.sound, CBufferedFile.Advances.refl b₁⟩
  generalize (Streamed.readBlock sha256).onDevice device b₁ = r at hcomplete hsound hadv hexception
  obtain ⟨answer, b'⟩ := r
  have hahead := hadv.ahead
  rw [hsrc₁, hbuffer₁.size, hbuffer₁.nRewind] at hahead
  have hforward := hadv.readPos
  rw [hread₁] at hforward
  refine ⟨b', st.dbp.map (fun pos => { pos with nPos := (q + 8) % 2 ^ 32 }), Option.map_eq_none_iff,
    hbuffer₁.advance hsound hadv, hforward, hahead, ?_⟩
  cases answer with
  | error e =>
    left
    refine ⟨?_, fun block hrecord => ?_⟩
    · cases e with
      | inl failure =>
        cases failure with
        | hashAborts => exact Or.inl rfl
        | stream failure => exact Or.inr rfl
        | indexOverflow => exact Or.inr rfl
      | inr e => exact Or.inr (if_pos (hexception e rfl))
    · obtain ⟨_, hrun, -⟩ := hcomplete block hrecord
      exact nomatch (Prod.mk.inj hrun).1
  | ok block =>
    right
    refine ⟨block, rfl, fun block' hrecord => ?_⟩
    obtain ⟨_, hrun, hend⟩ := hcomplete block' hrecord
    obtain ⟨hblock, rfl⟩ := Prod.mk.inj hrun
    exact ⟨Except.ok.inj hblock, hend⟩

end Headers

end Import

end MutableBitcoin
