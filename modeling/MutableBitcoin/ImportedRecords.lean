import MutableBitcoin.BlockImport

/-!
# The records of a block file

What an iteration of the import can do, and what follows for a whole file: the import ends, and a
complete record is handled unless a damaged one in front of it could not be scanned again.
-/

namespace MutableBitcoin
open Lib List Bool

section Import

variable {sha256 : Bytes → Uint256} {Node : Type}

section Processing

variable {ctx : ImportContext sha256 Node} {contents : Bytes} {st : ImportState sha256 Node}

/-- When the loop handles a block in a way. Only a block that is stored, or whose parent is unknown while no position is at
hand, is passed over. -/
def ImportContext.Handles (ctx : ImportContext sha256 Node) (dbp : Option CDiskBlockPos) (node : Node) (block : CBlock sha256) :
    Handling → Prop
  | .acceptBlock => ¬(ctx.hasEntry node (block.getHash sha256) = true ∧ ctx.haveData node (block.getHash sha256) = true)
  | .unknownParent => ctx.hasEntry node block.hashPrevBlock = false ∧ dbp ≠ none
  | .alreadyStored => ctx.hasEntry node (block.getHash sha256) = true ∧ ctx.haveData node (block.getHash sha256) = true
  | .notKept => ctx.hasEntry node block.hashPrevBlock = false ∧ dbp = none

variable (ctx) in
lemma length_acceptChildren (range : List CDiskBlockPos) (queue : List Uint256) (node : Node) (nLoaded : ℕ) :
    (ctx.acceptChildren range (queue, node, nLoaded)).1.length ≤ queue.length + range.length := by
  induction range generalizing queue node nLoaded with
  | nil => exact le_rfl
  | cons pos range ih =>
    unfold ImportContext.acceptChildren
    dsimp only
    cases ctx.readBlockFromDisk node pos with
    | none =>
      have := ih queue node nLoaded
      rw [length_cons]
      dsimp only
      omega
    | some pblockrecursive =>
      dsimp only
      split_ifs with haccepted
      · have := ih (queue ++ [pblockrecursive.getHash sha256]) (ctx.acceptBlock pblockrecursive (some pos) node).2 (nLoaded + 1)
        rw [length_append, length_singleton] at this
        rw [length_cons]
        omega
      · have := ih queue (ctx.acceptBlock pblockrecursive (some pos) node).2 nLoaded
        rw [length_cons]
        omega

variable (ctx) in
lemma exists_processQueue {fuel : ℕ} (queue : List Uint256) {unknown : List (Uint256 × CDiskBlockPos)} (node : Node)
    (nLoaded : ℕ) (hfuel : queue.length + unknown.length ≤ fuel) : ∃ r, ctx.processQueue fuel queue unknown node nLoaded = some r := by
  induction fuel generalizing queue unknown node nLoaded with
  | zero =>
    obtain rfl : queue = [] := length_eq_zero_iff.mp (by omega)
    exact ⟨_, rfl⟩
  | succ fuel ih =>
    cases queue with
    | nil => exact ⟨_, rfl⟩
    | cons head queue =>
      have hpush := length_acceptChildren ctx ((unknown.filter (fun p => p.1 = head)).map Prod.snd) queue node nLoaded
      have hsplit := @List.length_eq_length_filter_add _ unknown (fun p => decide (p.1 = head))
      have hrest : unknown.filter (fun p => !decide (p.1 = head)) = unknown.filter (fun p => decide (p.1 ≠ head)) :=
        filter_congr fun p _ => decide_not.symm
      rw [hrest] at hsplit
      rw [length_map] at hpush
      rw [length_cons] at hfuel
      exact ih _ _ _ (by omega)

variable (ctx st) in
lemma processBlock_cases (block : CBlock sha256) (nBlockPos : ℕ) :
    ∃ flow st' handling, ctx.processBlock block nBlockPos st = (flow, st') ∧ st'.blkdat = st.blkdat ∧ st'.nRewind = st.nRewind ∧
      st'.dbp = st.dbp ∧ st'.trace = .parsed nBlockPos st.blkdat.nReadPos block st.node handling :: st.trace ∧
      ctx.Handles st.dbp st.node block handling ∧
      (flow = .next ∨ flow = .leave .stateError ∨ flow = .leave .activationFailed) := by
  unfold ImportContext.processBlock
  dsimp only
  by_cases horphan : block.getHash sha256 ≠ ctx.hashGenesisBlock ∧ ctx.hasEntry st.node block.hashPrevBlock = false
  · rw [if_pos horphan]
    cases hdbp : st.dbp with
    | none => exact ⟨_, _, .notKept, rfl, rfl, rfl, rfl, rfl, ⟨horphan.2, rfl⟩, Or.inl rfl⟩
    | some pos => exact ⟨_, _, .unknownParent, rfl, rfl, rfl, rfl, rfl, ⟨horphan.2, nofun⟩, Or.inl rfl⟩
  · rw [if_neg horphan]
    have hhandles : ctx.Handles st.dbp st.node block
        (if (ctx.hasEntry st.node (block.getHash sha256) && ctx.haveData st.node (block.getHash sha256)) = true then
          .alreadyStored else .acceptBlock) := by
      split_ifs with hstored
      · exact (and_eq_true_iff).mp hstored
      · exact fun h => hstored ((and_eq_true_iff).mpr h)
    generalize (if (ctx.hasEntry st.node (block.getHash sha256) && ctx.haveData st.node (block.getHash sha256)) = true then
      Handling.alreadyStored else .acceptBlock) = handling at hhandles ⊢
    generalize (if (ctx.hasEntry st.node (block.getHash sha256) && ctx.haveData st.node (block.getHash sha256)) = true then
      ((⟨false, false⟩ : AcceptAnswer), st.node) else ctx.acceptBlock block st.dbp st.node) = answer
    by_cases herror : answer.1.isError = true
    · rw [if_pos herror]
      exact ⟨_, _, handling, rfl, rfl, rfl, rfl, rfl, hhandles, Or.inr (Or.inl rfl)⟩
    rw [if_neg herror]
    generalize (if block.getHash sha256 = ctx.hashGenesisBlock then ctx.activateBestChain answer.2 else (true, answer.2)) = activated
    by_cases hactivated : activated.1 = false
    · rw [if_pos hactivated]
      exact ⟨_, _, handling, rfl, rfl, rfl, rfl, rfl, hhandles, Or.inr (Or.inr rfl)⟩
    rw [if_neg hactivated]
    obtain ⟨r, hqueue⟩ := exists_processQueue ctx [block.getHash sha256] activated.2
      (if answer.1.accepted = true then st.nLoaded + 1 else st.nLoaded)
      (show 1 + st.mapBlocksUnknownParent.length ≤ st.mapBlocksUnknownParent.length + 1 by omega)
    rw [hqueue]
    exact ⟨_, _, handling, rfl, rfl, rfl, rfl, rfl, hhandles, Or.inl rfl⟩

variable (ctx contents st) in
/-- What an iteration can do that searches from `start` on. -/
inductive Outcome (start : ℕ) : Flow × ImportState sha256 Node → Prop
  | noHeader {st' : ImportState sha256 Node} (htrace : st'.trace = st.trace)
      (hnone : ∀ q nSize, start ≤ q → ¬HeaderAt ctx.messageStart contents q nSize) : Outcome start (.leave .noHeader, st')
  | skipped {q : ℕ} {b' : CBufferedFile} (hq : start ≤ q)
      (hnone : ∀ p nSize, start ≤ p → p ≤ q → ¬HeaderAt ctx.messageStart contents p nSize) (hbuffer : ImportBuffer contents b')
      (hread : q < b'.nReadPos) (hnear : b'.nReadPos ≤ q + 8) (hback : b'.nSrcPos ≤ q + (MAX_BLOCK_SERIALIZED_SIZE + 8)) :
      Outcome start (.next, { st with blkdat := b', nRewind := q + 1 })
  | aborted {st' : ImportState sha256 Node} (htrace : st'.trace = st.trace) : Outcome start (.leave .hashAborts, st')
  | damaged {q : ℕ} {b' : CBufferedFile} {dbp : Option CDiskBlockPos} (hdbp : dbp = none ↔ st.dbp = none) (hq : start ≤ q)
      (hnone : ∀ p nSize (block : CBlock sha256), start ≤ p → p ≤ q → ¬CompleteRecord ctx.messageStart contents p nSize block)
      (hbuffer : ImportBuffer contents b') (hread : q < b'.nReadPos) :
      Outcome start (.next, { st with blkdat := b', nRewind := q + 1, dbp := dbp, trace := .damaged q b' :: st.trace })
  | parsed {q : ℕ} {block : CBlock sha256} {handling : Handling} {flow : Flow}
      {st' : ImportState sha256 Node} (hdbp : st'.dbp = none ↔ st.dbp = none) (hq : start ≤ q)
      (hnone : ∀ p nSize, start ≤ p → p < q → ¬HeaderAt ctx.messageStart contents p nSize)
      (hbuffer : ImportBuffer contents st'.blkdat) (hread : q + 8 ≤ st'.blkdat.nReadPos) (hrewind : st'.nRewind = st'.blkdat.nReadPos)
      (hback : st'.blkdat.nSrcPos ≤ st'.blkdat.nReadPos + (MAX_BLOCK_SERIALIZED_SIZE + 8))
      (htrace : st'.trace = .parsed (q + 8) st'.blkdat.nReadPos block st.node handling :: st.trace)
      (hhandles : ctx.Handles st'.dbp st.node block handling)
      (hrecord : ∀ nSize block', CompleteRecord ctx.messageStart contents q nSize block' →
        block = block' ∧ st'.blkdat.nReadPos = q + 8 + nSize)
      (hflow : flow = .next ∨ flow = .leave .stateError ∨ flow = .leave .activationFailed) : Outcome start (flow, st')

variable (ctx) in
lemma iteration_outcome (h : st.Scans contents) :
    ∃ start, st.nRewind ≤ start ∧ (st.blkdat.nSrcPos ≤ st.nRewind + (MAX_BLOCK_SERIALIZED_SIZE + 8) → start = st.nRewind) ∧
      Outcome ctx contents st start (ctx.iteration st) := by
  obtain ⟨start, hstart, hexact, hcases⟩ := iteration_cases ctx h
  refine ⟨start, hstart, hexact, ?_⟩
  rcases hcases with ⟨st', hrun, htrace, hnone⟩ | ⟨q, b', hq, hnone, hbuffer, hread, hlimit, hback, hcases⟩
  · rw [hrun]
    exact .noHeader htrace hnone
  rcases hcases with ⟨hrun, hnear, hno⟩ | ⟨nSize, hheader, hat, hrun⟩
  · rw [hrun]
    refine .skipped hq (fun p nSize hp hle => ?_) hbuffer hread hnear hback
    rcases Nat.eq_or_lt_of_le hle with rfl | hlt
    · exact hno nSize
    · exact hnone p nSize hp hlt
  rw [hrun]
  obtain ⟨b'', dbp, hdbp, hbuffer', hread', hahead, hcases⟩ := readRecord_cases ctx
    { st with blkdat := b', nRewind := q + 1 } hbuffer hat hback hheader.most
  have hsame : ∀ n, HeaderAt ctx.messageStart contents q n → n = nSize := fun n hn => hn.size.symm.trans hheader.size
  rcases hcases with ⟨hfailed, hno⟩ | ⟨block, hblock, hrecord⟩
  · rcases hfailed with hrun | hrun
    · rw [hrun]
      exact .aborted rfl
    · rw [hrun]
      refine .damaged hdbp hq (fun p n block hp hle hcomplete => ?_) hbuffer' (by omega)
      rcases Nat.eq_or_lt_of_le hle with rfl | hlt
      · obtain rfl := hsame n hcomplete.toHeaderAt
        exact hno block hcomplete
      · exact hnone p n hp hlt hcomplete.toHeaderAt
  · obtain ⟨flow, st', handling, hrun, hblkdat, hrewind, hkept, htrace, hhandles, hflow⟩ := processBlock_cases ctx
      { st with blkdat := b'', nRewind := b''.nReadPos, dbp := dbp } block (q + 8)
    rw [hblock, hrun]
    dsimp only at hblkdat hrewind hkept htrace hhandles hahead
    rw [← hblkdat] at hbuffer' hread' hrewind htrace hahead hrecord
    rw [← hkept] at hdbp hhandles
    refine .parsed hdbp hq hnone hbuffer' hread' hrewind ?_ htrace hhandles (fun n block' hcomplete => ?_) hflow
    · unfold MAX_BLOCK_SERIALIZED_SIZE at hahead hback ⊢
      omega
    · obtain rfl := hsame n hcomplete.toHeaderAt
      exact hrecord block' hcomplete

end Processing

section Runs

variable {ctx : ImportContext sha256 Node} {contents : Bytes} {st : ImportState sha256 Node}

lemma scans_importStart (hlength : contents.length < 2 ^ 63) (dbp : Option CDiskBlockPos) (node : Node)
    (unknown : List (Uint256 × CDiskBlockPos)) :
    (ImportContext.importStart contents dbp node unknown : ImportState sha256 Node).Scans contents where
  buffer := ⟨CBufferedFile.sound_make hlength (by decide) (by decide), rfl, rfl, rfl⟩
  rewind := le_rfl

lemma Outcome.next {start : ℕ} {st' : ImportState sha256 Node} (hstart : st.nRewind ≤ start)
    (h : Outcome ctx contents st start (.next, st')) : st'.Scans contents ∧ st.nRewind < st'.nRewind := by
  cases h with
  | skipped hq _ hbuffer hread =>
    have hle := hbuffer.sound.readPos
    exact ⟨⟨hbuffer, by dsimp only; omega⟩, by dsimp only; omega⟩
  | damaged _ hq _ hbuffer hread =>
    have hle := hbuffer.sound.readPos
    exact ⟨⟨hbuffer, by dsimp only; omega⟩, by dsimp only; omega⟩
  | parsed _ hq _ hbuffer hread hrewind =>
    have hle := hbuffer.sound.readPos
    exact ⟨⟨hbuffer, by omega⟩, by omega⟩

lemma importLoop_ends (h : st.Scans contents) {fuel : ℕ} (hfuel : contents.length < fuel + st.nRewind) :
    (ctx.importLoop fuel st).1 ≠ .endlessLoop ∧ (ctx.importLoop fuel st).1 ≠ .undefinedRead := by
  induction fuel generalizing st with
  | zero =>
    have hle := h.rewind.trans h.buffer.sound.srcPos
    rw [h.buffer.contents] at hle
    omega
  | succ fuel ih =>
    unfold ImportContext.importLoop
    split_ifs with heof
    · exact ⟨nofun, nofun⟩
    · obtain ⟨start, hstart, -, houtcome⟩ := iteration_outcome ctx h
      generalize ctx.iteration st = r at houtcome
      obtain ⟨flow, st'⟩ := r
      cases flow with
      | next =>
        obtain ⟨hscans, hlt⟩ := houtcome.next hstart
        exact ih hscans (by omega)
      | leave ended =>
        cases houtcome with
        | noHeader => exact ⟨nofun, nofun⟩
        | aborted => exact ⟨nofun, nofun⟩
        | parsed _ _ _ _ _ _ _ _ _ _ hflow =>
          rcases hflow with hflow | hflow | hflow
          · cases hflow
          · cases hflow
            exact ⟨nofun, nofun⟩
          · cases hflow
            exact ⟨nofun, nofun⟩

/-- The record was handled, or overlaps a block that was parsed. -/
def Settled (ctx : ImportContext sha256 Node) (dbp : Option CDiskBlockPos) (trace : List (ImportEvent sha256 Node)) (q nSize : ℕ)
    (block : CBlock sha256) : Prop :=
  (∃ node handling, .parsed (q + 8) (q + 8 + nSize) block node handling ∈ trace ∧ ctx.Handles dbp node block handling) ∨
    ∃ p nEnd earlier node handling, .parsed p nEnd earlier node handling ∈ trace ∧ p < q + 8 ∧ q < nEnd

/-- The search can go on behind the start of a record that could not be read: the attempt has neither reached the end of the
file nor filled the buffer too far ahead. -/
def Rescans (q : ℕ) (blkdat : CBufferedFile) : Prop :=
  blkdat.eof = false ∧ blkdat.nSrcPos ≤ q + 1 + (MAX_BLOCK_SERIALIZED_SIZE + 8)

instance (q : ℕ) (blkdat : CBufferedFile) : Decidable (Rescans q blkdat) :=
  inferInstanceAs (Decidable (_ ∧ _))

/-- No position in front of the search is left out. -/
structure ImportState.Covers (ctx : ImportContext sha256 Node) (contents : Bytes) (dbp : Option CDiskBlockPos)
    (st : ImportState sha256 Node) : Prop extends st.Scans contents where
  back : st.blkdat.nSrcPos ≤ st.nRewind + (MAX_BLOCK_SERIALIZED_SIZE + 8)
  near : st.blkdat.eof = true → contents.length < st.nRewind + 8
  position : st.dbp = none ↔ dbp = none
  settled : ∀ q nSize block, q < st.nRewind → CompleteRecord ctx.messageStart contents q nSize block →
    Settled ctx dbp st.trace q nSize block

lemma Settled.mono {dbp : Option CDiskBlockPos} {trace trace' : List (ImportEvent sha256 Node)} {q nSize : ℕ}
    {block : CBlock sha256} (h : Settled ctx dbp trace q nSize block) (hsub : trace ⊆ trace') :
    Settled ctx dbp trace' q nSize block := by
  rcases h with ⟨node, handling, hmem, hhandles⟩ | ⟨p, nEnd, earlier, node, handling, hmem, hbefore⟩
  · exact Or.inl ⟨node, handling, hsub hmem, hhandles⟩
  · exact Or.inr ⟨p, nEnd, earlier, node, handling, hsub hmem, hbefore⟩

lemma Handles.congr {dbp dbp' : Option CDiskBlockPos} (hdbp : dbp = none ↔ dbp' = none) {node : Node} {block : CBlock sha256}
    {handling : Handling} (h : ctx.Handles dbp node block handling) : ctx.Handles dbp' node block handling := by
  cases handling with
  | acceptBlock => exact h
  | unknownParent => exact ⟨h.1, fun hnone => h.2 (hdbp.mpr hnone)⟩
  | alreadyStored => exact h
  | notKept => exact ⟨h.1, hdbp.mp h.2⟩

lemma Outcome.trace_subset {start : ℕ} {r : Flow × ImportState sha256 Node} (h : Outcome ctx contents st start r) :
    st.trace ⊆ r.2.trace := by
  cases h with
  | noHeader htrace => exact htrace.symm ▸ List.Subset.refl _
  | skipped => exact List.Subset.refl _
  | aborted htrace => exact htrace.symm ▸ List.Subset.refl _
  | damaged => exact subset_cons_self _ _
  | parsed _ _ _ _ _ _ _ htrace => exact htrace.symm ▸ subset_cons_self _ _

variable (ctx) in
lemma trace_subset_importLoop (h : st.Scans contents) (fuel : ℕ) : st.trace ⊆ (ctx.importLoop fuel st).2.trace := by
  induction fuel generalizing st with
  | zero => exact List.Subset.refl _
  | succ fuel ih =>
    unfold ImportContext.importLoop
    split_ifs with heof
    · exact List.Subset.refl _
    · obtain ⟨start, hstart, -, houtcome⟩ := iteration_outcome ctx h
      generalize ctx.iteration st = r at houtcome
      obtain ⟨flow, st'⟩ := r
      cases flow with
      | next => exact List.Subset.trans houtcome.trace_subset (ih (houtcome.next hstart).1)
      | leave ended => exact houtcome.trace_subset

lemma ImportBuffer.short_of_eof {b : CBufferedFile} (h : ImportBuffer contents b) {n : ℕ} (heof : b.eof = true)
    (hn : b.nReadPos < n) : contents.length < n := by
  rw [CBufferedFile.eof, and_eq_true, decide_eq_true_eq] at heof
  have hend := h.sound.atEnd heof.2
  rw [h.contents] at hend
  omega

lemma ImportState.Covers.next {dbp : Option CDiskBlockPos} {st' : ImportState sha256 Node} {Q nSize : ℕ}
    {block : CBlock sha256} (h : st.Covers ctx contents dbp) (hrun : Outcome ctx contents st st.nRewind (.next, st'))
    (hrecord : CompleteRecord ctx.messageStart contents Q nSize block) (hbehind : st.nRewind ≤ Q)
    (hscan : ∀ p blkdat, .damaged p blkdat ∈ st'.trace → p < Q → Rescans p blkdat) : st'.Covers ctx contents dbp := by
  have hold := fun q nSize block hq hrecord => (h.settled q nSize block hq hrecord).mono hrun.trace_subset
  obtain ⟨hscans, -⟩ := hrun.next le_rfl
  cases hrun with
  | @skipped q b' hq hnone hbuffer hread hnear hback =>
    refine ⟨hscans, by dsimp only; omega, fun heof => hbuffer.short_of_eof heof (show b'.nReadPos < q + 1 + 8 by omega),
      h.position, fun p n block hp hrecord => ?_⟩
    dsimp only at hp
    by_cases hpassed : p < st.nRewind
    · exact hold p n block hpassed hrecord
    · exact absurd hrecord.toHeaderAt (hnone p n (by omega) (by omega))
  | @damaged q b' dbp' hdbp hq hnone hbuffer hread =>
    -- the attempt was made in front of the record
    have hfront : q < Q := by
      by_contra hnot
      exact hnone Q nSize block hbehind (not_lt.mp hnot) hrecord
    obtain ⟨heof, hback⟩ := hscan q b' mem_cons_self hfront
    refine ⟨hscans, hback, fun h => absurd (heof.symm.trans h) false_ne_true, hdbp.trans h.position,
      fun p n block hp hrecord => ?_⟩
    dsimp only at hp
    by_cases hpassed : p < st.nRewind
    · exact hold p n block hpassed hrecord
    · exact absurd hrecord (hnone p n block (by omega) (by omega))
  | @parsed q block handling _ _ hdbp hq hnone hbuffer hread hrewind hback htrace hhandles hrecord =>
    have hposition := hdbp.trans h.position
    have hmem : ImportEvent.parsed (q + 8) st'.blkdat.nReadPos block st.node handling ∈ st'.trace := by
      rw [htrace]
      exact mem_cons_self
    refine ⟨hscans, by omega, fun heof => hbuffer.short_of_eof heof (by omega), hposition, fun p n block' hp hcomplete => ?_⟩
    rcases Nat.lt_trichotomy p q with hlt | rfl | hgt
    · by_cases hpassed : p < st.nRewind
      · exact hold p n block' hpassed hcomplete
      · exact absurd hcomplete.toHeaderAt (hnone p n (by omega) hlt)
    · obtain ⟨rfl, hend⟩ := hrecord n block' hcomplete
      rw [hend] at hmem
      exact Or.inl ⟨st.node, handling, hmem, Handles.congr hposition hhandles⟩
    · exact Or.inr ⟨q + 8, _, block, st.node, handling, hmem, by omega, by omega⟩

lemma importLoop_settles {dbp : Option CDiskBlockPos} (h : st.Covers ctx contents dbp) {fuel : ℕ}
    (hended : (ctx.importLoop fuel st).1 = .endOfFile ∨ (ctx.importLoop fuel st).1 = .noHeader)
    {q nSize : ℕ} {block : CBlock sha256} (hrecord : CompleteRecord ctx.messageStart contents q nSize block)
    (hscan : ∀ p blkdat, .damaged p blkdat ∈ (ctx.importLoop fuel st).2.trace → p < q → Rescans p blkdat) :
    Settled ctx dbp (ctx.importLoop fuel st).2.trace q nSize block := by
  induction fuel generalizing st with
  | zero => exact absurd hended (by rintro (h | h) <;> cases h)
  | succ fuel ih =>
    by_cases hpassed : q < st.nRewind
    · exact (h.settled q nSize block hpassed hrecord).mono (trace_subset_importLoop ctx h.toScans (fuel + 1))
    unfold ImportContext.importLoop at hended hscan ⊢
    split_ifs at hended hscan ⊢ with heof
    · have hshort := h.near heof
      have hfits := hrecord.fits
      exact h.settled q nSize block (by omega) hrecord
    · obtain ⟨start, -, hexact, houtcome⟩ := iteration_outcome ctx h.toScans
      rw [hexact h.back] at houtcome
      generalize ctx.iteration st = r at houtcome hended hscan ⊢
      obtain ⟨flow, st'⟩ := r
      cases flow with
      | next =>
        have hkept := trace_subset_importLoop ctx (houtcome.next le_rfl).1 fuel
        exact ih (h.next houtcome hrecord (not_lt.mp hpassed) fun p blkdat hmem => hscan p blkdat (hkept hmem)) hended hscan
      | leave ended =>
        cases houtcome with
        | noHeader htrace hnone => exact absurd hrecord.toHeaderAt (hnone q nSize (not_lt.mp hpassed))
        | aborted => exact absurd hended (by rintro (h | h) <;> cases h)
        | parsed _ _ _ _ _ _ _ _ _ _ hflow =>
          rcases hflow with hflow | hflow | hflow
          · cases hflow
          · cases hflow
            exact absurd hended (by rintro (h | h) <;> cases h)
          · cases hflow
            exact absurd hended (by rintro (h | h) <;> cases h)

lemma covers_importStart (hlength : contents.length < 2 ^ 63) (dbp : Option CDiskBlockPos) (node : Node)
    (unknown : List (Uint256 × CDiskBlockPos)) :
    (ImportContext.importStart contents dbp node unknown : ImportState sha256 Node).Covers ctx contents dbp where
  toScans := scans_importStart hlength dbp node unknown
  back := Nat.zero_le _
  near h := absurd h false_ne_true
  position := Iff.rfl
  settled _ _ _ hq := absurd hq (Nat.not_lt_zero _)

/-- No record is lost if those in front of it that could not be read can be scanned again. The import must get to the end of
the file, which a failure of the node or a hash that aborts prevents. -/
theorem loadExternalBlockFile_settles (ctx : ImportContext sha256 Node) (file : FileBytes) (dbp : Option CDiskBlockPos)
    (node : Node) (unknown : List (Uint256 × CDiskBlockPos))
    (hended : (ctx.loadExternalBlockFile file.bytes dbp node unknown).1 = .endOfFile ∨
      (ctx.loadExternalBlockFile file.bytes dbp node unknown).1 = .noHeader) :
    ∀ q nSize block, CompleteRecord ctx.messageStart file.bytes q nSize block →
      (∀ p blkdat, .damaged p blkdat ∈ (ctx.loadExternalBlockFile file.bytes dbp node unknown).2.trace → p < q →
        Rescans p blkdat) →
      Settled ctx dbp (ctx.loadExternalBlockFile file.bytes dbp node unknown).2.trace q nSize block := by
  intro q nSize block hrecord hscan
  unfold ImportContext.loadExternalBlockFile at hended hscan ⊢
  exact importLoop_settles (covers_importStart file.length_lt dbp node unknown) hended hrecord hscan

/-- Runs of calls that let no sum wrap deliver the file, and a sum that wraps spoils the next read. The import ends for every
file. -/
theorem bufferedFile_transparent (file : FileBytes) (nBufSize nRewindIn : ℕ) (b : CBufferedFile) (sha256 : Bytes → Uint256)
    (Node : Type) (ctx : ImportContext sha256 Node) (dbp : Option CDiskBlockPos) (node : Node)
    (unknown : List (Uint256 × CDiskBlockPos)) :
    (nRewindIn < nBufSize → nBufSize < 2 ^ 32 → CBufferedFile.Reached (.make file.bytes nBufSize nRewindIn) b →
      CBufferedFile.SameFile (.make file.bytes nBufSize nRewindIn) b ∧
        (∀ f ∈ b.fills, CBufferedFile.FillKeeps nBufSize nRewindIn f) ∧
        (∀ c : CBufferedFile.Call, c.Safe b → CBufferedFile.Transparent b c (b.call c)) ∧
        ∀ nPos, CBufferedFile.SetPosWraps b nPos.toNat →
          let b' := ((b.call (.setPos nPos)).2.call (.setLimit (-1))).2
          ¬CBufferedFile.Transparent b' (.read 1) (b'.call (.read 1))) ∧
      (ctx.loadExternalBlockFile file.bytes dbp node unknown).1 ≠ .endlessLoop ∧
        (ctx.loadExternalBlockFile file.bytes dbp node unknown).1 ≠ .undefinedRead := by
  refine ⟨fun hrewind hsize hreached => ?_, ?_⟩
  · obtain ⟨hsound, hsame⟩ := hreached.sound (CBufferedFile.sound_make file.length_lt hrewind hsize)
    refine ⟨hsame, fun f hf => ?_, fun c hsafe => (hsound.call_spec hsafe).2.2, fun nPos => hsound.not_transparent_of_wraps⟩
    have hkeeps := hsound.fills f hf
    rwa [hsame.size, hsame.nRewind] at hkeeps
  · exact importLoop_ends (scans_importStart file.length_lt dbp node unknown) (Nat.lt_succ_self _)

end Runs

section Files

def mainMessageStart : BaseBlob 4 := ⟨[0xf9, 0xbe, 0xb4, 0xd9], rfl⟩

lemma length_ones : (List.replicate 32 (1 : UInt8)).length = 32 := rfl

def plainHeader : CBlockHeader := ⟨0, BaseBlob.null 32, BaseBlob.null 32, 0, 0, 0, ⟨List.replicate 32 1, length_ones⟩⟩

def plainBlock : CBlock cSHA256 := ⟨plainHeader, [], false⟩

def plainRecord : Bytes := mainMessageStart.data ++ (leBytes 4 113 ++ plainBlock.serialize diskStream)

/-- A node without a state: whether it knows every block, whether it has stored them, and the answer of `AcceptBlock`. -/
def fixedContext (known stored : Bool) (answer : AcceptAnswer) : ImportContext cSHA256 Unit where
  messageStart := mainMessageStart
  hashGenesisBlock := BaseBlob.null 32
  hasEntry _ _ := known
  haveData _ _ := stored
  acceptBlock _ _ node := (answer, node)
  activateBestChain node := (true, node)
  readBlockFromDisk _ _ := none

lemma decodes_plainBlock : Decodes (CBlock.decode cSHA256) (plainBlock.serialize diskStream) plainBlock :=
  @CBlock.decodes cSHA256 plainBlock (fun _ h => absurd h not_mem_nil) (fun _ h => absurd h not_mem_nil)
    (show 0 ≤ MAX_SIZE from Nat.zero_le _)

lemma completeRecord_plainRecord (front behind : Bytes) :
    CompleteRecord mainMessageStart (front ++ (plainRecord ++ behind)) front.length 113 plainBlock := by
  have hlength : (plainBlock.serialize diskStream).length = 113 := by decide +kernel
  have hrecord := completeRecord_append mainMessageStart front behind decodes_plainBlock (by rw [hlength]; decide)
    (by rw [hlength]; decide)
  rw [hlength] at hrecord
  rw [plainRecord, append_assoc, append_assoc]
  exact hrecord

/-- Records that reach neither `AcceptBlock` nor the map of unknown parents: behind a header whose block runs into the end of
the file, of a stored block, of a block without a known parent while no position is at hand, and behind an error. -/
theorem loadExternalBlockFile_loses_records :
    (CompleteRecord mainMessageStart (mainMessageStart.data ++ leBytes 4 1000 ++ (plainRecord ++ [])) 8 113 plainBlock ∧
      let r := (fixedContext true false ⟨true, false⟩).loadExternalBlockFile
        (mainMessageStart.data ++ leBytes 4 1000 ++ (plainRecord ++ [])) (some ⟨0, 0⟩) () []
      r.1 = .endOfFile ∧ r.2.trace.map ImportEvent.handling? = [none]) ∧
    (CompleteRecord mainMessageStart ([] ++ (plainRecord ++ [])) 0 113 plainBlock ∧
      ((fixedContext true true ⟨true, false⟩).loadExternalBlockFile ([] ++ (plainRecord ++ [])) (some ⟨0, 0⟩) () []).2.trace.map
        ImportEvent.handling? = [some .alreadyStored] ∧
      ((fixedContext false false ⟨true, false⟩).loadExternalBlockFile ([] ++ (plainRecord ++ [])) none () []).2.trace.map
        ImportEvent.handling? = [some .notKept]) ∧
    (CompleteRecord mainMessageStart (plainRecord ++ (plainRecord ++ [])) 121 113 plainBlock ∧
      let r := (fixedContext true false ⟨false, true⟩).loadExternalBlockFile (plainRecord ++ (plainRecord ++ []))
        (some ⟨0, 0⟩) () []
      r.1 = .stateError ∧ r.2.trace.map ImportEvent.handling? = [some .acceptBlock]) := by
  refine ⟨⟨completeRecord_plainRecord (mainMessageStart.data ++ leBytes 4 1000) [], ?_⟩,
    ⟨completeRecord_plainRecord [] [], ?_⟩, ?_, ?_⟩
  · decide +kernel
  · decide +kernel
  · have hrecord := completeRecord_plainRecord plainRecord []
    rwa [show plainRecord.length = 121 by decide +kernel] at hrecord
  · decide +kernel

/-- A header whose block is longer than it says, and two records behind it. -/
def damagedFile : FileBytes :=
  ⟨mainMessageStart.data ++ leBytes 4 100 ++ (plainRecord ++ plainRecord), by decide +kernel⟩

/-- The damaged record is scanned again, and both blocks behind its start are handed to `AcceptBlock`. -/
theorem loadExternalBlockFile_settles_damagedFile :
    let r := (fixedContext true false ⟨true, false⟩).loadExternalBlockFile damagedFile.bytes (some ⟨0, 0⟩) () []
    r.2.trace.map ImportEvent.handling? = [some .acceptBlock, some .acceptBlock, none] ∧
      Settled (fixedContext true false ⟨true, false⟩) (some ⟨0, 0⟩) r.2.trace 8 113 plainBlock := by
  have htrace : ((fixedContext true false ⟨true, false⟩).loadExternalBlockFile damagedFile.bytes (some ⟨0, 0⟩) () []).2.trace.map
      (fun e => (e.handling?, match e with
        | .damaged p b => decide (Rescans p b)
        | .parsed .. => true)) = [(some .acceptBlock, true), (some .acceptBlock, true), (none, true)] := by
    decide +kernel
  refine ⟨?_, loadExternalBlockFile_settles _ _ _ _ _ (Or.inl (by decide +kernel)) 8 113 plainBlock
    (completeRecord_plainRecord (mainMessageStart.data ++ leBytes 4 100) plainRecord) (fun p blkdat hmem _ => ?_)⟩
  · have hfst := congrArg (List.map Prod.fst) htrace
    rwa [map_map] at hfst
  · have hpair := mem_map_of_mem hmem (f := fun e => (ImportEvent.handling? e, match e with
        | .damaged p b => decide (Rescans p b)
        | .parsed .. => true))
    rw [htrace] at hpair
    simpa [ImportEvent.handling?] using hpair

theorem bufferedFile_transparent_fiveBytes :
    let b := ((CBufferedFile.make [1, 2, 3, 4, 5] 16 10).call (.read 5)).2
    CBufferedFile.Transparent b (.setPos 2) (b.call (.setPos 2)) :=
  ((bufferedFile_transparent ⟨[1, 2, 3, 4, 5], by decide⟩ 16 10 _ cSHA256 Unit (fixedContext true true ⟨true, false⟩)
    none () []).1 (by decide) (by decide) (.call (c := .read 5) .start trivial)).2.2.1 (.setPos 2) (fun hwraps => absurd hwraps.2.1 (by decide +kernel))

/-- In a buffer of 2^32 bytes a byte is found that the file does not have. Where the sum in `SetPos` wraps, the reader is left
behind the file and the next read writes beyond its destination. -/
theorem bufferedFile_fails :
    (((CBufferedFile.make [1] (2 ^ 32) 8).call (.findByte 0)).1 = .found none ∧
      ((CBufferedFile.make [1] (2 ^ 32) 8).call (.findByte 0)).2.nReadPos = 0) ∧
    let b := ((CBufferedFile.make [1, 2, 3, 4, 5] 16 10).call (.read 5)).2
    let b' := (b.call (.setPos (-9))).2
    b'.nReadPos = 2 ^ 64 - 5 ∧ (b'.call (.read 1)).1 = .delivered [] (some .outOfBounds) := by
  decide +kernel

end Files

end Import

end MutableBitcoin
