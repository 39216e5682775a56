import MutableBitcoin.BloomFilter

/-!
# The filters of peers over runs

Every message and every transaction leaves a filter on which all calls are safe and what was
inserted since the last load is contained.
-/

namespace MutableBitcoin
open Lib List Bool

namespace CBloomFilter

/-! ### Transactions -/

/-- The filter contains a push of the script. -/
def HoldsElement (f : CBloomFilter) (script : CScript) : Prop :=
  ∃ r ∈ (CScript.scan script).ops, r.vchRet ≠ [] ∧ f.Holds r.vchRet

lemma containsElement_eq {f : CBloomFilter} (hsafe : f.Safe) (ops : List CScript.GetOpResult) :
    ∃ b, f.containsElement ops = some b ∧ (b = true ↔ ∃ r ∈ ops, r.vchRet ≠ [] ∧ f.Holds r.vchRet) := by
  induction ops with
  | nil => exact ⟨false, rfl, by simp⟩
  | cons r ops ih =>
    obtain ⟨b, hrest, hb⟩ := ih
    rw [containsElement, exists_mem_cons_iff, ← hb]
    by_cases hne : r.vchRet = []
    · rw [if_neg (by rw [hne]; decide)]
      exact ⟨b, hrest, by simp [hne]⟩
    · obtain ⟨found, hfound, hholds⟩ := contains_eq hsafe r.vchRet
      rw [if_pos (fun hzero => hne (eq_nil_of_length_eq_zero hzero)), hfound, ← hholds]
      dsimp only [bind, Option.bind]
      cases found with
      | true => exact ⟨true, rfl, by simp [hne]⟩
      | false => exact ⟨b, hrest, by simp⟩

/-- What the scan of a transaction does to the filter. -/
structure Scanned (s s' : Relevance) : Prop where
  grows : s.filter.Grows s'.filter
  found : s.fFound = true → s'.fFound = true
  inserted : ∀ key ∈ s'.inserted, key ∈ s.inserted ∨ s'.filter.Holds key

lemma Scanned.refl (s : Relevance) : Scanned s s := ⟨.refl _, id, fun _ hkey => Or.inl hkey⟩

lemma Scanned.trans {s s' s'' : Relevance} (h : Scanned s s') (h' : Scanned s' s'') : Scanned s s'' where
  grows := h.grows.trans h'.grows
  found := fun hfound => h'.found (h.found hfound)
  inserted := by
    intro key hkey
    obtain hkey | hkey := h'.inserted key hkey
    · exact (h.inserted key hkey).imp_right h'.grows.holds
    · exact Or.inr hkey

section Outputs

variable {hash : Uint256} {i : ℕ} {txout : CTxOut} {s : Relevance}

lemma matchOutput_eq (hsafe : s.filter.Safe) :
    ∃ s', matchOutput hash i txout s = some s' ∧ Scanned s s' ∧ s'.fFound = true ∧
      (s.filter.updates txout.scriptPubKey = true → s'.filter.Holds (COutPoint.mk hash (UInt32.ofNat i)).serialize) := by
  unfold matchOutput
  cases hupdates : s.filter.updates txout.scriptPubKey with
  | true =>
    obtain ⟨f', hinsert, hgrows, hholds⟩ := insert_eq hsafe (COutPoint.mk hash (UInt32.ofNat i)).serialize
    rw [if_pos rfl]
    dsimp only [bind, Option.bind]
    rw [hinsert]
    refine ⟨_, rfl, ⟨hgrows, fun _ => rfl, fun key hkey => ?_⟩, rfl, fun _ => hholds⟩
    obtain hkey | hkey := mem_append.mp hkey
    · exact Or.inl hkey
    · rw [mem_singleton.mp hkey]
      exact Or.inr hholds
  | false =>
    rw [if_neg Bool.false_ne_true]
    exact ⟨_, rfl, ⟨.refl _, fun _ => rfl, fun _ hkey => Or.inl hkey⟩, rfl, fun h => absurd h false_ne_true⟩

lemma scanOutput_eq (hsafe : s.filter.Safe) :
    ∃ s', scanOutput hash i txout s = some s' ∧ Scanned s s' ∧
      (s.filter.HoldsElement txout.scriptPubKey → s.filter.updates txout.scriptPubKey = true →
        s'.filter.Holds (COutPoint.mk hash (UInt32.ofNat i)).serialize) := by
  obtain ⟨b, hrun, hb⟩ := containsElement_eq hsafe (CScript.scan txout.scriptPubKey).ops
  unfold scanOutput
  rw [hrun]
  dsimp only [bind, Option.bind]
  cases b with
  | true =>
    obtain ⟨s', hmatch, hscanned, -, hholds⟩ := @matchOutput_eq hash i txout s hsafe
    exact ⟨s', hmatch, hscanned, fun _ => hholds⟩
  | false => exact ⟨s, rfl, .refl s, fun helement => absurd (hb.mpr helement) false_ne_true⟩

lemma updates_of_all {f : CBloomFilter} (hflags : f.nFlags &&& BLOOM_UPDATE_MASK = BLOOM_UPDATE_ALL) (script : CScript) :
    f.updates script = true := if_pos hflags

lemma scanOutputs_eq (vout : List CTxOut) (hsafe : s.filter.Safe) :
    ∃ s', scanOutputs hash i vout s = some s' ∧ Scanned s s' ∧
      (s.filter.nFlags &&& BLOOM_UPDATE_MASK = BLOOM_UPDATE_ALL → ∀ (k : ℕ) (txout : CTxOut), vout[k]? = some txout →
        s.filter.HoldsElement txout.scriptPubKey →
        s'.filter.Holds (COutPoint.mk hash (UInt32.ofNat (i + k))).serialize) := by
  induction vout generalizing i s with
  | nil => exact ⟨s, rfl, .refl s, fun _ k txout hget => by cases hget⟩
  | cons first vout ih =>
    obtain ⟨s₁, hfirst, hscanned, hholds⟩ := @scanOutput_eq hash i first s hsafe
    obtain ⟨s₂, hrest, hscanned₂, hholds₂⟩ := @ih (i + 1) s₁ (hscanned.grows.safe hsafe)
    refine ⟨s₂, ?_, hscanned.trans hscanned₂, fun hflags k txout hget helement => ?_⟩
    · rw [scanOutputs, hfirst]
      exact hrest
    cases k with
    | zero =>
      obtain rfl := Option.some.inj hget
      exact hscanned₂.grows.holds (hholds helement (updates_of_all hflags _))
    | succ k =>
      obtain ⟨r, hr, hne, hheld⟩ := helement
      have hindex : i + (k + 1) = i + 1 + k := by omega
      rw [hindex]
      exact hholds₂ (hscanned.grows.nFlags ▸ hflags) k txout hget ⟨r, hr, hne, hscanned.grows.holds hheld⟩

end Outputs

lemma containsInput_eq {f : CBloomFilter} (hsafe : f.Safe) (vin : List CTxIn) :
    ∃ b, f.containsInput vin = some b ∧
      (b = true ↔ ∃ txin ∈ vin, f.Holds txin.prevout.serialize ∨ f.HoldsElement txin.scriptSig) := by
  induction vin with
  | nil => exact ⟨false, rfl, by simp⟩
  | cons txin vin ih =>
    obtain ⟨b, hrest, hb⟩ := ih
    obtain ⟨found, hfound, hprevout⟩ := contains_eq hsafe txin.prevout.serialize
    obtain ⟨found', hfound', helement⟩ := containsElement_eq hsafe (CScript.scan txin.scriptSig).ops
    have hholds : f.HoldsElement txin.scriptSig ↔ found' = true := helement.symm
    rw [containsInput, hfound, exists_mem_cons_iff, ← hprevout, hholds, ← hb]
    dsimp only [bind, Option.bind]
    cases found with
    | true => exact ⟨true, rfl, by simp⟩
    | false =>
      rw [if_neg Bool.false_ne_true, hfound']
      dsimp only
      cases found' with
      | true => exact ⟨true, rfl, by simp⟩
      | false => exact ⟨b, hrest, by simp⟩

lemma scanInputs_eq {s : Relevance} (hsafe : s.filter.Safe) (vin : List CTxIn) :
    ∃ s', scanInputs vin s = some s' ∧ s'.filter = s.filter ∧ s'.inserted = s.inserted ∧
      ((∃ txin ∈ vin, s.filter.Holds txin.prevout.serialize) → s'.fFound = true) := by
  unfold scanInputs
  cases hfound : s.fFound with
  | true => exact ⟨s, rfl, rfl, rfl, fun _ => hfound⟩
  | false =>
    obtain ⟨b, hrun, hb⟩ := containsInput_eq hsafe vin
    rw [if_neg Bool.false_ne_true, hrun]
    refine ⟨_, rfl, rfl, rfl, ?_⟩
    rintro ⟨txin, htxin, hholds⟩
    exact hb.mpr ⟨txin, htxin, Or.inl hholds⟩

variable {sha256 : Bytes → Uint256}

/-- What a call of `IsRelevantAndUpdate` does. -/
structure Updated (f : CBloomFilter) (tx : CTransaction sha256) (s : Relevance) : Prop where
  grows : f.Grows s.filter
  inserted : ∀ key ∈ s.inserted, s.filter.Holds key
  spends : (∃ txin ∈ tx.vin, s.filter.Holds txin.prevout.serialize) → s.fFound = true
  added : f.nFlags &&& BLOOM_UPDATE_MASK = BLOOM_UPDATE_ALL → ∀ (i : ℕ) (txout : CTxOut), tx.vout[i]? = some txout →
    f.HoldsElement txout.scriptPubKey → s.filter.Holds (COutPoint.mk tx.hash (UInt32.ofNat i)).serialize

lemma isRelevantAndUpdate_eq {f : CBloomFilter} (hsafe : f.Safe) (tx : CTransaction sha256) :
    ∃ s, f.isRelevantAndUpdate tx = some s ∧ Updated f tx s := by
  unfold isRelevantAndUpdate
  cases hfull : f.isFull with
  | true => exact ⟨_, rfl, .refl f, fun _ hkey => (by cases hkey), fun _ => rfl, fun _ _ _ _ _ => Or.inl hfull⟩
  | false =>
    rw [if_neg Bool.false_ne_true]
    cases hempty : f.isEmpty with
    | true =>
      -- Nothing is contained.
      have hnone : ∀ key, ¬f.Holds key := by
        rintro key (h | ⟨h, -⟩)
        · exact false_ne_true (hfull.symm.trans h)
        · exact false_ne_true (h.symm.trans hempty)
      exact ⟨_, rfl, .refl f, fun _ hkey => (by cases hkey), fun ⟨_, _, hholds⟩ => absurd hholds (hnone _),
        fun _ _ _ _ ⟨_, _, _, hholds⟩ => absurd hholds (hnone _)⟩
    | false =>
      obtain ⟨found, hfound, -⟩ := contains_eq hsafe tx.hash.data
      obtain ⟨s, hscan, hscanned, hadded⟩ := @scanOutputs_eq tx.hash 0 ⟨found, f, []⟩ tx.vout hsafe
      obtain ⟨s', hinputs, hfilter, hinserted, hspends⟩ := scanInputs_eq (hscanned.grows.safe hsafe) tx.vin
      rw [if_neg Bool.false_ne_true, hfound]
      dsimp only [bind, Option.bind]
      rw [hscan]
      refine ⟨s', hinputs, hfilter ▸ hscanned.grows, fun key hkey => ?_, fun hheld => ?_, fun hflags i txout hget hheld => ?_⟩
      · rw [hinserted] at hkey
        rw [hfilter]
        exact (hscanned.inserted key hkey).resolve_left (by simp)
      · rw [hfilter] at hheld
        exact hspends hheld
      · have hholds := hadded hflags i txout hget hheld
        rw [Nat.zero_add] at hholds
        rwa [hfilter]

end CBloomFilter

/-! ### Blocks -/

section Blocks

open CBloomFilter

variable {sha256 : Bytes → Uint256}

def filterBefore : CBloomFilter → List (CTransaction sha256) → ℕ → Option CBloomFilter
  | filter, _, 0 => some filter
  | filter, [], _ => some filter
  | filter, tx :: vtx, k + 1 => do
    let s ← filter.isRelevantAndUpdate tx
    filterBefore s.filter vtx k

lemma filterBefore_zero (f : CBloomFilter) (vtx : List (CTransaction sha256)) : filterBefore f vtx 0 = some f := by
  cases vtx <;> rfl

lemma scanTransactions_eq (vtx : List (CTransaction sha256)) {i : ℕ} {f : CBloomFilter} (hsafe : f.Safe) :
    ∃ r, scanTransactions i vtx f = some r ∧ ∀ (k : ℕ) (tx : CTransaction sha256), vtx[k]? = some tx →
      ∃ fk s, filterBefore f vtx k = some fk ∧ f.Grows fk ∧ fk.isRelevantAndUpdate tx = some s ∧
        filterBefore f vtx (k + 1) = some s.filter ∧ r.vMatch[k]? = some s.fFound ∧
        (s.fFound = true → (i + k, tx.hash) ∈ r.vMatchedTxn) := by
  induction vtx generalizing i f with
  | nil => exact ⟨_, rfl, fun k tx hget => by cases hget⟩
  | cons first vtx ih =>
    obtain ⟨s, hrun, hupdated⟩ := isRelevantAndUpdate_eq hsafe first
    obtain ⟨r, hscan, hrest⟩ := @ih (i + 1) s.filter (hupdated.grows.safe hsafe)
    rw [scanTransactions, hrun]
    dsimp only [bind, Option.bind]
    rw [hscan]
    refine ⟨_, rfl, fun k tx hget => ?_⟩
    cases k with
    | zero =>
      obtain rfl := Option.some.inj hget
      refine ⟨f, s, rfl, .refl f, hrun, ?_, rfl, fun hfound => ?_⟩
      · rw [filterBefore, hrun]
        dsimp only [bind, Option.bind]
        rw [filterBefore]
      · dsimp only
        rw [if_pos hfound]
        exact mem_cons_self
    | succ k =>
      obtain ⟨fk, s', hbefore, hgrows, hrun', hnext, hmatch, hmem⟩ := hrest k tx hget
      have hstep : ∀ m, filterBefore f (first :: vtx) (m + 1) = filterBefore s.filter vtx m := by
        intro m
        rw [filterBefore, hrun]
        rfl
      refine ⟨fk, s', (hstep k).trans hbefore, hupdated.grows.trans hgrows, hrun', (hstep (k + 1)).trans hnext, hmatch,
        fun hfound => ?_⟩
      have hindex : i + (k + 1) = i + 1 + k := by omega
      have hin := hmem hfound
      dsimp only
      rw [hindex]
      split_ifs
      · exact mem_cons_of_mem _ hin
      · exact hin

lemma filterBefore_grows (vtx : List (CTransaction sha256)) {f fj fk : CBloomFilter} (hsafe : f.Safe) {j k : ℕ}
    (hle : j ≤ k) (hj : filterBefore f vtx j = some fj) (hk : filterBefore f vtx k = some fk) : fj.Grows fk := by
  induction vtx generalizing f fj j k with
  | nil =>
    have hsame : ∀ m, filterBefore f ([] : List (CTransaction sha256)) m = some f := by
      intro m
      cases m <;> rfl
    rw [hsame] at hj hk
    rw [← Option.some.inj hj, ← Option.some.inj hk]
    exact .refl f
  | cons tx vtx ih =>
    obtain ⟨s, hrun, hupdated⟩ := isRelevantAndUpdate_eq hsafe tx
    have hsafe' := hupdated.grows.safe hsafe
    have hstep : ∀ m, filterBefore f (tx :: vtx) (m + 1) = filterBefore s.filter vtx m := by
      intro m
      rw [filterBefore, hrun]
      rfl
    cases k with
    | zero =>
      obtain rfl := Nat.le_zero.mp hle
      obtain rfl := Option.some.inj (hj.symm.trans hk)
      exact .refl fj
    | succ k =>
      rw [hstep] at hk
      cases j with
      | zero =>
        obtain rfl := Option.some.inj hj
        exact hupdated.grows.trans (ih hsafe' (Nat.zero_le k) (filterBefore_zero _ vtx) hk)
      | succ j =>
        rw [hstep] at hj
        exact ih hsafe' (Nat.le_of_succ_le_succ hle) hj hk

/-- Every transaction is matched that spends an output of an earlier one where an element of the script of the output,
which is not empty, is contained in the filter before the scan reaches that transaction. -/
def MatchesSpenders (f : CBloomFilter) (vtx : List (CTransaction sha256)) (vMatch : List Bool)
    (vMatchedTxn : List (ℕ × Uint256)) : Prop :=
  ∀ i j k : ℕ, i ≤ j → j < k → ∀ earlier later : CTransaction sha256, vtx[j]? = some earlier → vtx[k]? = some later →
    ∀ txin ∈ later.vin, txin.prevout.hash = earlier.hash →
    ∀ txout, earlier.vout[txin.prevout.n.toNat]? = some txout →
    ∀ r ∈ (CScript.scan txout.scriptPubKey).ops, r.vchRet ≠ [] →
    ∀ fi, filterBefore f vtx i = some fi → fi.contains r.vchRet = some true →
      vMatch[k]? = some true ∧ (k, later.hash) ∈ vMatchedTxn

lemma matchesSpenders {f : CBloomFilter} (hsafe : f.Safe) (hflags : f.nFlags &&& BLOOM_UPDATE_MASK = BLOOM_UPDATE_ALL)
    {vtx : List (CTransaction sha256)} {r : BlockScan} (hscan : scanTransactions 0 vtx f = some r) :
    MatchesSpenders f vtx r.vMatch r.vMatchedTxn := by
  obtain ⟨r', hscan', hall⟩ := @scanTransactions_eq sha256 vtx 0 f hsafe
  obtain rfl := Option.some.inj (hscan'.symm.trans hscan)
  intro i j k hij hjk earlier later hearlier hlater txin htxin hhash txout htxout op hop hne fi hfi hcontains
  obtain ⟨fj, sj, hfj, hgrowsJ, hrunJ, hnext, -, -⟩ := hall j earlier hearlier
  obtain ⟨fk, sk, hfk, hgrowsK, hrunK, -, hmatch, hmem⟩ := hall k later hlater
  have hsafeJ := hgrowsJ.safe hsafe
  -- The element is contained when the earlier transaction is reached, so that the output is added.
  have hgrowsI := filterBefore_grows vtx hsafe (Nat.zero_le i) (filterBefore_zero _ vtx) hfi
  have hheld : fj.Holds op.vchRet :=
    (filterBefore_grows vtx hsafe hij hfi hfj).holds ((contains_iff (hgrowsI.safe hsafe) _).mp hcontains)
  obtain ⟨sj', hrunJ', hupdatedJ⟩ := isRelevantAndUpdate_eq hsafeJ earlier
  obtain rfl := Option.some.inj (hrunJ.symm.trans hrunJ')
  have hadded := hupdatedJ.added (hgrowsJ.nFlags ▸ hflags) _ txout htxout ⟨op, hop, hne, hheld⟩
  have houtpoint : COutPoint.mk earlier.hash (UInt32.ofNat txin.prevout.n.toNat) = txin.prevout := by
    rw [UInt32.ofNat_toNat, ← hhash]
  rw [houtpoint] at hadded
  -- It still is when the later one is.
  obtain ⟨sk', hrunK', hupdatedK⟩ := isRelevantAndUpdate_eq (hgrowsK.safe hsafe) later
  obtain rfl := Option.some.inj (hrunK.symm.trans hrunK')
  have hfound : sk.fFound = true := hupdatedK.spends ⟨txin, htxin,
    hupdatedK.grows.holds ((filterBefore_grows vtx hsafe hjk hnext hfk).holds hadded)⟩
  have hin := hmem hfound
  rw [Nat.zero_add] at hin
  exact ⟨hmatch.trans (congrArg some hfound), hin⟩

end Blocks

/-! ### Runs -/

section Runs

open CBloomFilter

variable {sha256 : Bytes → Uint256}

variable (sha256) in
/-- What a peer's filter goes through. -/
inductive FilterEvent where
  | message (m : FilterPeer.Message)
  | relevant (tx : CTransaction sha256)

variable (nodeBloom : Bool) (nVersion : ℕ)

def FilterPeer.step (peer : FilterPeer) : FilterEvent sha256 → Option FilterPeer
  | .message m => peer.processMessage nodeBloom nVersion m
  | .relevant tx =>
    match peer.pfilter with
    | some pfilter => do
      let s ← pfilter.isRelevantAndUpdate tx
      return { peer with pfilter := some s.filter }
    | none => some peer

def FilterEvent.loads : FilterEvent sha256 → Option CBloomFilter
  | .message (.filterload vRecv) =>
    match CBloomFilter.unserialize vRecv with
    | .ok (filter, _) => if nodeBloom && filter.isWithinSizeConstraints then some filter.updateEmptyFull else none
    | .error _ => none
  | _ => none

def FilterEvent.inserts (pfilter : CBloomFilter) : FilterEvent sha256 → List Bytes
  | .message (.filteradd vRecv) =>
    match readByteVector vRecv with
    | .ok (vData, _) => if nodeBloom && vData.length ≤ MAX_SCRIPT_ELEMENT_SIZE then [vData] else []
    | .error _ => []
  | .relevant tx =>
    match pfilter.isRelevantAndUpdate tx with
    | some s => s.inserted
    | none => []
  | _ => []

/-- A peer, the filter it loaded last and what was inserted since. -/
structure FilterHistory where
  peer : FilterPeer
  loaded : Option CBloomFilter
  inserted : List Bytes

namespace FilterHistory

def start : FilterHistory := ⟨⟨some .default, false, false, 0⟩, none, []⟩

def step (h : FilterHistory) (event : FilterEvent sha256) : Option FilterHistory := do
  let peer ← h.peer.step nodeBloom nVersion event
  match event.loads nodeBloom with
  | some filter => return ⟨peer, some filter, []⟩
  | none =>
    match h.peer.pfilter with
    | some pfilter => return ⟨peer, h.loaded, h.inserted ++ event.inserts nodeBloom pfilter⟩
    | none => return ⟨peer, h.loaded, h.inserted⟩

def run : List (FilterEvent sha256) → FilterHistory → Option FilterHistory
  | [], h => some h
  | event :: events, h => do
    let h ← h.step nodeBloom nVersion event
    run events h

/-- The filter of the peer contains all that it should. -/
structure Kept (h : FilterHistory) (f : CBloomFilter) : Prop where
  pfilter : h.peer.pfilter = some f
  safe : f.Safe
  inserted : ∀ key ∈ h.inserted, f.Holds key
  loaded : ∀ g, h.loaded = some g → (∃ b ∈ g.vData, b ≠ 0) → ∀ key, g.HasBits key → f.Holds key

lemma kept_start : Kept start default := ⟨rfl, safe_default, fun _ hkey => (by cases hkey), fun _ h => by cases h⟩

lemma Kept.grow {h : FilterHistory} {f f' : CBloomFilter} (hkept : h.Kept f) (hgrows : f.Grows f') {peer : FilterPeer}
    (hpeer : peer.pfilter = some f') {keys : List Bytes} (hkeys : ∀ key ∈ keys, f'.Holds key) :
    Kept ⟨peer, h.loaded, h.inserted ++ keys⟩ f' where
  pfilter := hpeer
  safe := hgrows.safe hkept.safe
  inserted := by
    intro key hkey
    obtain hkey | hkey := mem_append.mp hkey
    · exact hgrows.holds (hkept.inserted key hkey)
    · exact hkeys key hkey
  loaded := fun g hg hbit key hkey => hgrows.holds (hkept.loaded g hg hbit key hkey)

lemma step_eq {h : FilterHistory} {f : CBloomFilter} (hkept : h.Kept f) {event : FilterEvent sha256} {peer : FilterPeer}
    (hstep : h.peer.step nodeBloom nVersion event = some peer) (hloads : event.loads nodeBloom = none) :
    h.step nodeBloom nVersion event = some ⟨peer, h.loaded, h.inserted ++ event.inserts nodeBloom f⟩ := by
  unfold step
  rw [hstep]
  dsimp only [bind, Option.bind]
  rw [hloads, hkept.pfilter]
  rfl

lemma step_loads {h : FilterHistory} {event : FilterEvent sha256} {peer : FilterPeer} {filter : CBloomFilter}
    (hstep : h.peer.step nodeBloom nVersion event = some peer) (hloads : event.loads nodeBloom = some filter) :
    h.step nodeBloom nVersion event = some ⟨peer, some filter, []⟩ := by
  unfold step
  rw [hstep]
  dsimp only [bind, Option.bind]
  rw [hloads]
  rfl

lemma pfilter_refuse (peer : FilterPeer) : (peer.refuse nVersion).pfilter = peer.pfilter := by
  unfold FilterPeer.refuse
  split_ifs <;> rfl

lemma kept_same {h : FilterHistory} {f : CBloomFilter} (hkept : h.Kept f) {event : FilterEvent sha256} {peer : FilterPeer}
    (hstep : h.peer.step nodeBloom nVersion event = some peer) (hpeer : peer.pfilter = h.peer.pfilter)
    (hloads : event.loads nodeBloom = none) (hinserts : event.inserts nodeBloom f = []) :
    ∃ h' f', h.step nodeBloom nVersion event = some h' ∧ h'.Kept f' := by
  refine ⟨_, f, step_eq nodeBloom nVersion hkept hstep hloads, hkept.grow (.refl f) (hpeer.trans hkept.pfilter) ?_⟩
  rw [hinserts]
  exact fun key hkey => by cases hkey

lemma step_filterload {h : FilterHistory} {f : CBloomFilter} (hkept : h.Kept f) (vRecv : Bytes) :
    ∃ h' f', h.step nodeBloom nVersion (.message (.filterload vRecv) : FilterEvent sha256) = some h' ∧ h'.Kept f' := by
  cases nodeBloom with
  | false =>
    refine kept_same _ _ hkept rfl (pfilter_refuse nVersion _) ?_ rfl
    rw [FilterEvent.loads]
    split <;> rfl
  | true =>
    cases hread : CBloomFilter.unserialize vRecv with
    | error failure =>
      have hstep : h.peer.step true nVersion (.message (.filterload vRecv) : FilterEvent sha256) = some h.peer := by
        rw [FilterPeer.step, FilterPeer.processMessage, hread]
        rfl
      refine kept_same true nVersion hkept hstep rfl ?_ rfl
      rw [FilterEvent.loads, hread]
    | ok r =>
      obtain ⟨filter, rest⟩ := r
      have hstep : h.peer.step true nVersion (.message (.filterload vRecv) : FilterEvent sha256) =
          some (h.peer.filterload filter) := by
        rw [FilterPeer.step, FilterPeer.processMessage, hread]
        rfl
      cases hsize : filter.isWithinSizeConstraints with
      | false =>
        refine kept_same true nVersion hkept hstep ?_ ?_ rfl
        · rw [FilterPeer.filterload, hsize]
          rfl
        · rw [FilterEvent.loads, hread]
          dsimp only
          rw [hsize]
          rfl
      | true =>
        have hloads : (.message (.filterload vRecv) : FilterEvent sha256).loads true = some filter.updateEmptyFull := by
          rw [FilterEvent.loads, hread]
          dsimp only
          rw [hsize]
          rfl
        refine ⟨_, filter.updateEmptyFull, step_loads true nVersion hstep hloads, ?_, safe_updateEmptyFull filter,
          fun _ hkey => (by cases hkey), fun g hg hbit key hkey => ?_⟩
        · rw [FilterPeer.filterload, hsize]
          rfl
        · obtain rfl := Option.some.inj hg
          exact holds_of_hasBits hbit hkey

lemma step_filteradd {h : FilterHistory} {f : CBloomFilter} (hkept : h.Kept f) (vRecv : Bytes) :
    ∃ h' f', h.step nodeBloom nVersion (.message (.filteradd vRecv) : FilterEvent sha256) = some h' ∧ h'.Kept f' := by
  cases nodeBloom with
  | false =>
    refine kept_same _ _ hkept rfl (pfilter_refuse nVersion _) rfl ?_
    rw [FilterEvent.inserts]
    split <;> rfl
  | true =>
    cases hread : readByteVector vRecv with
    | error failure =>
      have hstep : h.peer.step true nVersion (.message (.filteradd vRecv) : FilterEvent sha256) = some h.peer := by
        rw [FilterPeer.step, FilterPeer.processMessage, hread]
        rfl
      refine kept_same true nVersion hkept hstep rfl rfl ?_
      rw [FilterEvent.inserts, hread]
    | ok r =>
      obtain ⟨vData, rest⟩ := r
      have hstep : h.peer.step true nVersion (.message (.filteradd vRecv) : FilterEvent sha256) =
          h.peer.filteradd vData := by
        rw [FilterPeer.step, FilterPeer.processMessage, hread]
        rfl
      have hinserts : (.message (.filteradd vRecv) : FilterEvent sha256).inserts true f =
          if vData.length ≤ MAX_SCRIPT_ELEMENT_SIZE then [vData] else [] := by
        rw [FilterEvent.inserts, hread]
        simp
      by_cases hsize : MAX_SCRIPT_ELEMENT_SIZE < vData.length
      · have hbad : h.peer.filteradd vData = some (h.peer.misbehaving 100) := by
          rw [FilterPeer.filteradd, if_pos hsize]
        refine kept_same true nVersion hkept (hstep.trans hbad) rfl rfl ?_
        rw [hinserts, if_neg (by omega)]
      · obtain ⟨f', hinsert, hgrows, hholds⟩ := insert_eq hkept.safe vData
        have hadd : h.peer.filteradd vData = some { h.peer with pfilter := some f' } := by
          rw [FilterPeer.filteradd, if_neg hsize, hkept.pfilter]
          dsimp only [bind, Option.bind]
          rw [hinsert]
          rfl
        refine ⟨_, f', step_eq true nVersion hkept (hstep.trans hadd) rfl, hkept.grow hgrows rfl ?_⟩
        rw [hinserts, if_pos (by omega)]
        intro key hkey
        rwa [mem_singleton.mp hkey]

lemma step_filterclear {h : FilterHistory} {f : CBloomFilter} (hkept : h.Kept f) :
    ∃ h' f', h.step nodeBloom nVersion (.message .filterclear : FilterEvent sha256) = some h' ∧ h'.Kept f' := by
  cases nodeBloom with
  | false => exact kept_same false nVersion hkept rfl rfl rfl rfl
  | true =>
    refine ⟨_, default, step_eq true nVersion hkept rfl rfl, rfl, safe_default, fun key _ => holds_default key,
      fun _ _ _ key _ => holds_default key⟩

lemma step_relevant {h : FilterHistory} {f : CBloomFilter} (hkept : h.Kept f) (tx : CTransaction sha256) :
    ∃ h' f', h.step nodeBloom nVersion (.relevant tx) = some h' ∧ h'.Kept f' := by
  obtain ⟨s, hrun, hupdated⟩ := isRelevantAndUpdate_eq hkept.safe tx
  have hstep : h.peer.step nodeBloom nVersion (.relevant tx) = some { h.peer with pfilter := some s.filter } := by
    rw [FilterPeer.step, hkept.pfilter]
    dsimp only [bind, Option.bind]
    rw [hrun]
    rfl
  refine ⟨_, s.filter, step_eq nodeBloom nVersion hkept hstep rfl, hkept.grow hupdated.grows rfl fun key hkey => ?_⟩
  rw [FilterEvent.inserts, hrun] at hkey
  exact hupdated.inserted key hkey

lemma exists_step {h : FilterHistory} {f : CBloomFilter} (hkept : h.Kept f) (event : FilterEvent sha256) :
    ∃ h' f', h.step nodeBloom nVersion event = some h' ∧ h'.Kept f' := by
  cases event with
  | message m =>
    cases m with
    | filterload vRecv => exact step_filterload nodeBloom nVersion hkept vRecv
    | filteradd vRecv => exact step_filteradd nodeBloom nVersion hkept vRecv
    | filterclear => exact step_filterclear nodeBloom nVersion hkept
  | relevant tx => exact step_relevant nodeBloom nVersion hkept tx

lemma exists_run (events : List (FilterEvent sha256)) {h : FilterHistory} {f : CBloomFilter} (hkept : h.Kept f) :
    ∃ h' f', run nodeBloom nVersion events h = some h' ∧ h'.Kept f' := by
  induction events generalizing h f with
  | nil => exact ⟨h, f, rfl, hkept⟩
  | cons event events ih =>
    obtain ⟨h₁, f₁, hstep, hkept₁⟩ := exists_step nodeBloom nVersion hkept event
    obtain ⟨h₂, f₂, hrun, hkept₂⟩ := ih hkept₁
    refine ⟨h₂, f₂, ?_, hkept₂⟩
    rw [run, hstep]
    exact hrun

end FilterHistory

/-- Whatever a peer sends, all calls on its filter are safe, what has been inserted since the last load is contained, as
is what a loaded filter with a bit contains, and the scan of a block matches what spends an added output. -/
theorem peerFilter_kept (events : List (FilterEvent sha256)) :
    ∃ h f, FilterHistory.run nodeBloom nVersion events .start = some h ∧ h.peer.pfilter = some f ∧
      (∀ key, (f.contains key).isSome = true ∧ (f.insert key).isSome = true) ∧
      (∀ tx : CTransaction sha256, (f.isRelevantAndUpdate tx).isSome = true) ∧
      (∀ key ∈ h.inserted, f.contains key = some true) ∧
      (∀ g, h.loaded = some g → (∃ b ∈ g.vData, b ≠ 0) → ∀ key, g.HasBits key → f.contains key = some true) ∧
      (f.nFlags &&& BLOOM_UPDATE_MASK = BLOOM_UPDATE_ALL → ∀ block : CBlock sha256, block.vtx ≠ [] →
        ∃ r vMatch, filterBlock block f = some r ∧
          r.merkleBlock.txn = .build sha256 (block.vtx.map fun tx => tx.hash) vMatch ∧
          MatchesSpenders f block.vtx vMatch r.vMatchedTxn) := by
  obtain ⟨h, f, hrun, hkept⟩ := FilterHistory.exists_run nodeBloom nVersion events FilterHistory.kept_start
  refine ⟨h, f, hrun, hkept.pfilter, fun key => ⟨?_, ?_⟩, fun tx => ?_, fun key hkey => ?_, fun g hg hbit key hkey => ?_,
    fun hflags block hne => ?_⟩
  · obtain ⟨b, hcontains, -⟩ := contains_eq hkept.safe key
    rw [hcontains]
    rfl
  · obtain ⟨f', hinsert, -⟩ := insert_eq hkept.safe key
    rw [hinsert]
    rfl
  · obtain ⟨s, hupdate, -⟩ := isRelevantAndUpdate_eq hkept.safe tx
    rw [hupdate]
    rfl
  · exact (contains_iff hkept.safe key).mpr (hkept.inserted key hkey)
  · exact (contains_iff hkept.safe key).mpr (hkept.loaded g hg hbit key hkey)
  · obtain ⟨r, hscan, -⟩ := @scanTransactions_eq sha256 block.vtx 0 f hkept.safe
    refine ⟨⟨⟨block.toCBlockHeader, .build sha256 (block.vtx.map fun tx => tx.hash) r.vMatch⟩, r.vMatchedTxn, r.filter⟩,
      r.vMatch, ?_, rfl, matchesSpenders hkept.safe hflags hscan⟩
    rw [filterBlock, hscan]
    dsimp only [bind, Option.bind]
    rw [if_neg (by rwa [List.isEmpty_iff])]
    rfl

end Runs

end MutableBitcoin
