import MutableBitcoin.Lib.Components
import MutableBitcoin.Lib.OrderedContainers
import MutableBitcoin.Standard
import MutableBitcoin.Wallet
import Mathlib.Data.Prod.Lex
import Mathlib.Order.Lattice.Nat

/-!
# Address groupings

`GetAddressGroupings` of `wallet.cpp`. It collects groups of addresses that were spent from together and unites
those with an address in common.
-/

namespace MutableBitcoin
open Lib List Finmap

variable {sha256 : Bytes → Uint256}

/-- What `boost::variant` compares destinations by. -/
def CTxDestination.sortKey : CTxDestination → ℕ ×ₗ List ℕ
  | .noDestination => toLex (0, [])
  | .keyID hash => toLex (1, hash.data.map UInt8.toNat)
  | .scriptID hash => toLex (2, hash.data.map UInt8.toNat)

/-- `std::set<CTxDestination>`, in its order. -/
abbrev Grouping := List CTxDestination

def insertAddress (grouping : Grouping) (address : CTxDestination) : Grouping :=
  insertUnique (fun a b => a.sortKey ≤ b.sortKey) address grouping

/-- The insertion into `std::set< std::set<CTxDestination> >`. -/
def insertGrouping (groupings : List Grouping) (grouping : Grouping) : List Grouping :=
  insertUnique (fun s t => s.map CTxDestination.sortKey ≤ t.map CTxDestination.sortKey) grouping groupings

/-- What of a wallet the groupings depend on: `IsMine` is a function of the script. -/
structure AddressWallet (sha256 : Bytes → Uint256) where
  mapWallet : List (Uint256 × CWalletTx sha256)
  isMine : CScript → Bool
  mapAddressBook : List CTxDestination

namespace AddressWallet

variable (crypto : ScriptCrypto) (w : AddressWallet sha256)

/-- The output that an input spends, if it is one of a transaction of the wallet and `IsMine`. -/
def findMine (txin : CTxIn) : Option CTxOut :=
  ((w.mapWallet.lookup txin.prevout.hash).bind fun prev => prev.tx.vout[txin.prevout.n.toNat]?).filter
    fun txout => w.isMine txout.scriptPubKey

/-- `IsChange`. -/
def isChange (txout : CTxOut) : Bool :=
  w.isMine txout.scriptPubKey &&
    match extractDestination crypto txout.scriptPubKey with
    | some address => address ∉ w.mapAddressBook
    | none => true

/-- One input: the grouping, and `any_mine`. -/
def groupInput (acc : Grouping × Bool) (txin : CTxIn) : Grouping × Bool :=
  match (w.findMine txin).bind fun txout => extractDestination crypto txout.scriptPubKey with
  | some address => (insertAddress acc.1 address, true)
  | none => acc

/-- A change output joins the group of the inputs. -/
def groupChange (grouping : Grouping) (txout : CTxOut) : Grouping :=
  if w.isChange crypto txout then
    match extractDestination crypto txout.scriptPubKey with
    | some txoutAddr => insertAddress grouping txoutAddr
    | none => grouping
  else grouping

/-- An output of the wallet is a group by itself. -/
def groupLone (groupings : List Grouping) (txout : CTxOut) : List Grouping :=
  if w.isMine txout.scriptPubKey then
    match extractDestination crypto txout.scriptPubKey with
    | some address => insertGrouping groupings (insertAddress [] address)
    | none => groupings
  else groupings

def inputGrouping (tx : CTransaction sha256) : Grouping :=
  let inputs := tx.vin.foldl (w.groupInput crypto) ([], false)
  if inputs.2 then tx.vout.foldl (w.groupChange crypto) inputs.1 else inputs.1

def groupTransaction (groupings : List Grouping) (walletEntry : Uint256 × CWalletTx sha256) : List Grouping :=
  let tx := walletEntry.2.tx
  let grouping := w.inputGrouping crypto tx
  tx.vout.foldl (w.groupLone crypto)
    (if 0 < tx.vin.length ∧ 0 < grouping.length then insertGrouping groupings grouping else groupings)

def initialGroupings : List Grouping := w.mapWallet.foldl (w.groupTransaction crypto) []

end AddressWallet

/-- `new`: an address at which nothing is allocated, whatever it is that decides on it. -/
structure Allocator where
  address : ℕ → Finset ℕ → ℕ
  address_fresh : ∀ nAllocated live, address nAllocated live ∉ live

/-- The sets that `new` allocated, and the two tables of pointers to them. -/
structure GroupState where
  heap : Finmap (fun _ : ℕ => Grouping)
  nAllocated : ℕ
  uniqueGroupings : List ℕ
  setmap : Finmap (fun _ : CTxDestination => ℕ)

namespace GroupState

def empty : GroupState := ⟨∅, 0, [], ∅⟩

def hits (st : GroupState) (grouping : Grouping) : List ℕ :=
  grouping.foldl (fun hits address =>
    match st.setmap.lookup address with
    | some p => insertUnique (· ≤ ·) p hits
    | none => hits) []

def mergeHit (acc : GroupState × Grouping) (hit : ℕ) : Option (GroupState × Grouping) :=
  (acc.1.heap.lookup hit).map fun elements =>
    ({ acc.1 with heap := acc.1.heap.erase hit, uniqueGroupings := acc.1.uniqueGroupings.erase hit },
      elements.foldl insertAddress acc.2)

/-- One pass of the loop over `groupings`. -/
def mergeGrouping (alloc : Allocator) (st : GroupState) (grouping : Grouping) : Option GroupState := do
  let merged := alloc.address st.nAllocated st.heap.keys
  let (st', elements) ← (st.hits grouping).foldlM mergeHit (st, grouping)
  return { heap := st'.heap.insert merged elements
           nAllocated := st'.nAllocated + 1
           uniqueGroupings := insertUnique (· ≤ ·) merged st'.uniqueGroupings
           setmap := elements.foldl (fun setmap element => setmap.insert element merged) st'.setmap }

def collect (acc : List Grouping × Finmap (fun _ : ℕ => Grouping)) (p : ℕ) :
    Option (List Grouping × Finmap (fun _ : ℕ => Grouping)) :=
  (acc.2.lookup p).map fun elements => (insertGrouping acc.1 elements, acc.2.erase p)

end GroupState

/-- `GetAddressGroupings`; nothing where it would follow a dangling pointer. -/
def AddressWallet.getAddressGroupings (crypto : ScriptCrypto) (alloc : Allocator) (w : AddressWallet sha256) :
    Option (List Grouping) := do
  let st ← (w.initialGroupings crypto).foldlM (GroupState.mergeGrouping alloc) .empty
  let collected ← st.uniqueGroupings.foldlM GroupState.collect ([], st.heap)
  return collected.1

end MutableBitcoin

/-!
## Address groupings are connected components

What is allocated while groupings are merged are the components of the groupings so far.
-/

namespace MutableBitcoin
open Lib List Finmap

variable {sha256 : Bytes → Uint256}

def Grouping.toSet (grouping : Grouping) : Set CTxDestination := {a | a ∈ grouping}

@[simp] lemma mem_insertAddress {grouping : Grouping} {a b : CTxDestination} :
    b ∈ insertAddress grouping a ↔ b = a ∨ b ∈ grouping := mem_insertUnique

@[simp] lemma mem_insertGrouping {groupings : List Grouping} {g h : Grouping} :
    h ∈ insertGrouping groupings g ↔ h = g ∨ h ∈ groupings := mem_insertUnique

namespace AddressWallet

variable (crypto : ScriptCrypto) (w : AddressWallet sha256)

/-- The address of an output of the wallet that an input spends. -/
def InputAddress (txin : CTxIn) (a : CTxDestination) : Prop :=
  ∃ txout, w.findMine txin = some txout ∧ extractDestination crypto txout.scriptPubKey = some a

def inputAddresses (tx : CTransaction sha256) : Set CTxDestination :=
  {a | ∃ txin ∈ tx.vin, w.InputAddress crypto txin a}

def changeAddresses (tx : CTransaction sha256) : Set CTxDestination :=
  {a | ∃ txout ∈ tx.vout, w.isChange crypto txout = true ∧ extractDestination crypto txout.scriptPubKey = some a}

/-- The groupings that the transactions of a wallet give. -/
inductive InitialGrouping : Set CTxDestination → Prop where
  | inputs {walletEntry : Uint256 × CWalletTx sha256} (hentry : walletEntry ∈ w.mapWallet)
    (hmine : (w.inputAddresses crypto walletEntry.2.tx).Nonempty) :
    InitialGrouping (w.inputAddresses crypto walletEntry.2.tx ∪ w.changeAddresses crypto walletEntry.2.tx)
  | output {walletEntry : Uint256 × CWalletTx sha256} {txout : CTxOut} {a : CTxDestination}
    (hentry : walletEntry ∈ w.mapWallet) (htxout : txout ∈ walletEntry.2.tx.vout)
    (hmine : w.isMine txout.scriptPubKey = true)
    (haddress : extractDestination crypto txout.scriptPubKey = some a) : InitialGrouping {a}

lemma groupInput_spec (acc : Grouping × Bool) (txin : CTxIn) :
    (∀ a, a ∈ (w.groupInput crypto acc txin).1 ↔ a ∈ acc.1 ∨ w.InputAddress crypto txin a) ∧
      ((w.groupInput crypto acc txin).2 = true ↔ acc.2 = true ∨ ∃ a, w.InputAddress crypto txin a) := by
  unfold groupInput InputAddress
  cases haddress : (w.findMine txin).bind fun txout => extractDestination crypto txout.scriptPubKey with
  | some address =>
    obtain ⟨txout, htxout, hextract⟩ := Option.bind_eq_some_iff.mp haddress
    constructor
    · intro a
      rw [mem_insertAddress]
      constructor
      · rintro (rfl | ha)
        · exact Or.inr ⟨txout, htxout, hextract⟩
        · exact Or.inl ha
      · rintro (ha | ⟨txout', htxout', hextract'⟩)
        · exact Or.inr ha
        · rw [htxout] at htxout'
          cases htxout'
          rw [hextract] at hextract'
          cases hextract'
          exact Or.inl rfl
    · exact iff_of_true rfl (Or.inr ⟨address, txout, htxout, hextract⟩)
  | none =>
    have hnone : ∀ a, ¬∃ txout, w.findMine txin = some txout ∧ extractDestination crypto txout.scriptPubKey = some a := by
      rintro a ⟨txout, htxout, hextract⟩
      rw [htxout, Option.bind_some, hextract] at haddress
      cases haddress
    refine ⟨fun a => ?_, ?_⟩
    · rw [or_iff_left (hnone a)]
    · rw [or_iff_left fun ⟨a, ha⟩ => hnone a ha]

lemma foldl_groupInput_spec (vin : List CTxIn) (acc : Grouping × Bool) :
    (∀ a, a ∈ (vin.foldl (w.groupInput crypto) acc).1 ↔ a ∈ acc.1 ∨ ∃ txin ∈ vin, w.InputAddress crypto txin a) ∧
      ((vin.foldl (w.groupInput crypto) acc).2 = true ↔
        acc.2 = true ∨ ∃ txin ∈ vin, ∃ a, w.InputAddress crypto txin a) := by
  induction vin generalizing acc with
  | nil => simp
  | cons txin vin ih =>
    rw [foldl_cons]
    obtain ⟨hmem, hmine⟩ := groupInput_spec crypto w acc txin
    refine ⟨fun a => ?_, ?_⟩
    · rw [(ih _).1, hmem, exists_mem_cons_iff, or_assoc]
    · rw [(ih _).2, hmine, exists_mem_cons_iff, or_assoc]

variable {crypto w}

lemma mem_foldl_groupChange (vout : List CTxOut) (grouping : Grouping) (a : CTxDestination) :
    a ∈ vout.foldl (w.groupChange crypto) grouping ↔ a ∈ grouping ∨ ∃ txout ∈ vout,
      w.isChange crypto txout = true ∧ extractDestination crypto txout.scriptPubKey = some a := by
  induction vout generalizing grouping with
  | nil => simp
  | cons txout vout ih =>
    rw [foldl_cons, ih, exists_mem_cons_iff, ← or_assoc]
    refine or_congr ?_ Iff.rfl
    unfold groupChange
    split_ifs with hchange
    · cases hextract : extractDestination crypto txout.scriptPubKey with
      | some address =>
        dsimp only
        rw [mem_insertAddress, Option.some.injEq]
        tauto
      | none => simp
    · exact (or_iff_left fun h => hchange h.1).symm

lemma mem_inputGrouping (tx : CTransaction sha256) (a : CTxDestination) :
    a ∈ w.inputGrouping crypto tx ↔
      (w.inputAddresses crypto tx).Nonempty ∧ a ∈ w.inputAddresses crypto tx ∪ w.changeAddresses crypto tx := by
  obtain ⟨hmem, hmine⟩ := foldl_groupInput_spec crypto w tx.vin ([], false)
  have hmem' : ∀ a, a ∈ (tx.vin.foldl (w.groupInput crypto) ([], false)).1 ↔ a ∈ w.inputAddresses crypto tx := by
    intro a
    rw [hmem]
    exact or_iff_right not_mem_nil
  have hmine' : (tx.vin.foldl (w.groupInput crypto) ([], false)).2 = true ↔ (w.inputAddresses crypto tx).Nonempty := by
    rw [hmine, or_iff_right Bool.false_ne_true]
    constructor
    · rintro ⟨txin, htxin, a, ha⟩
      exact ⟨a, txin, htxin, ha⟩
    · rintro ⟨a, txin, htxin, ha⟩
      exact ⟨txin, htxin, a, ha⟩
  unfold inputGrouping
  dsimp only
  split_ifs with hany
  · rw [mem_foldl_groupChange, hmem', and_iff_right (hmine'.mp hany)]
    rfl
  · rw [hmem', iff_false_left (fun ha => hany (hmine'.mpr ⟨a, ha⟩))]
    exact fun h => hany (hmine'.mpr h.1)

lemma mem_foldl_groupLone (vout : List CTxOut) (groupings : List Grouping) (g : Grouping) :
    g ∈ vout.foldl (w.groupLone crypto) groupings ↔ g ∈ groupings ∨ ∃ txout ∈ vout,
      w.isMine txout.scriptPubKey = true ∧ ∃ a, extractDestination crypto txout.scriptPubKey = some a ∧ g = [a] := by
  induction vout generalizing groupings with
  | nil => simp
  | cons txout vout ih =>
    rw [foldl_cons, ih, exists_mem_cons_iff, ← or_assoc]
    refine or_congr ?_ Iff.rfl
    unfold groupLone
    split_ifs with hmine
    · cases hextract : extractDestination crypto txout.scriptPubKey with
      | some address =>
        have hsingle : insertAddress [] address = [address] := rfl
        dsimp only
        rw [mem_insertGrouping, hsingle]
        constructor
        · rintro (rfl | hg)
          · exact Or.inr ⟨hmine, address, rfl, rfl⟩
          · exact Or.inl hg
        · rintro (hg | ⟨-, a, ha, rfl⟩)
          · exact Or.inr hg
          · cases ha
            exact Or.inl rfl
      | none => simp
    · exact (or_iff_left fun h => hmine h.1).symm

lemma mem_groupTransaction (groupings : List Grouping) (walletEntry : Uint256 × CWalletTx sha256) (g : Grouping) :
    g ∈ w.groupTransaction crypto groupings walletEntry ↔ g ∈ groupings ∨
      (g = w.inputGrouping crypto walletEntry.2.tx ∧ (w.inputAddresses crypto walletEntry.2.tx).Nonempty) ∨
      ∃ txout ∈ walletEntry.2.tx.vout, w.isMine txout.scriptPubKey = true ∧
        ∃ a, extractDestination crypto txout.scriptPubKey = some a ∧ g = [a] := by
  unfold groupTransaction
  dsimp only
  rw [mem_foldl_groupLone, ← or_assoc]
  refine or_congr ?_ Iff.rfl
  have hne : (0 < walletEntry.2.tx.vin.length ∧ 0 < (w.inputGrouping crypto walletEntry.2.tx).length) ↔
      (w.inputAddresses crypto walletEntry.2.tx).Nonempty := by
    constructor
    · rintro ⟨-, hlength⟩
      obtain ⟨a, ha⟩ := exists_mem_of_length_pos hlength
      exact ((mem_inputGrouping _ a).mp ha).1
    · intro hmine
      obtain ⟨a, txin, htxin, ha⟩ := hmine
      refine ⟨length_pos_of_mem htxin, ?_⟩
      exact length_pos_of_mem ((mem_inputGrouping _ a).mpr ⟨⟨a, txin, htxin, ha⟩, Or.inl ⟨txin, htxin, ha⟩⟩)
  split_ifs with hpos
  · rw [mem_insertGrouping, and_iff_left (hne.mp hpos), or_comm]
  · rw [or_iff_left fun h => hpos (hne.mpr h.2)]

lemma mem_foldl_groupTransaction (entries : List (Uint256 × CWalletTx sha256)) (groupings : List Grouping)
    (g : Grouping) : g ∈ entries.foldl (w.groupTransaction crypto) groupings ↔ g ∈ groupings ∨
      ∃ walletEntry ∈ entries,
        (g = w.inputGrouping crypto walletEntry.2.tx ∧ (w.inputAddresses crypto walletEntry.2.tx).Nonempty) ∨
        ∃ txout ∈ walletEntry.2.tx.vout, w.isMine txout.scriptPubKey = true ∧
          ∃ a, extractDestination crypto txout.scriptPubKey = some a ∧ g = [a] := by
  induction entries generalizing groupings with
  | nil => simp
  | cons walletEntry entries ih => rw [foldl_cons, ih, mem_groupTransaction, exists_mem_cons_iff, or_assoc]

lemma mem_initialGroupings (s : Set CTxDestination) :
    (∃ g ∈ w.initialGroupings crypto, g.toSet = s) ↔ w.InitialGrouping crypto s := by
  have hinputs : ∀ tx : CTransaction sha256, (w.inputAddresses crypto tx).Nonempty →
      (w.inputGrouping crypto tx).toSet = w.inputAddresses crypto tx ∪ w.changeAddresses crypto tx := by
    intro tx hmine
    ext a
    exact (mem_inputGrouping tx a).trans (and_iff_right hmine)
  have hsingle : ∀ a : CTxDestination, Grouping.toSet [a] = {a} := by
    intro a
    ext b
    exact mem_singleton
  unfold initialGroupings
  constructor
  · rintro ⟨g, hg, rfl⟩
    obtain hnil | ⟨walletEntry, hentry, hcase⟩ := (mem_foldl_groupTransaction _ _ _).mp hg
    · exact absurd hnil not_mem_nil
    obtain ⟨rfl, hmine⟩ | ⟨txout, htxout, hmine, a, haddress, rfl⟩ := hcase
    · rw [hinputs _ hmine]
      exact .inputs hentry hmine
    · rw [hsingle]
      exact .output hentry htxout hmine haddress
  · intro h
    cases h with
    | @inputs walletEntry hentry hmine =>
      refine ⟨_, (mem_foldl_groupTransaction _ _ _).mpr (Or.inr ⟨walletEntry, hentry, Or.inl ⟨rfl, hmine⟩⟩), ?_⟩
      exact hinputs _ hmine
    | @output walletEntry txout a hentry htxout hmine haddress =>
      refine ⟨[a], (mem_foldl_groupTransaction _ _ _).mpr (Or.inr ⟨walletEntry, hentry, Or.inr ?_⟩), hsingle a⟩
      exact ⟨txout, htxout, hmine, a, haddress, rfl⟩

lemma InitialGrouping.nonempty {s : Set CTxDestination} (h : w.InitialGrouping crypto s) : s.Nonempty := by
  cases h with
  | inputs _ hmine => exact hmine.mono Set.subset_union_left
  | output _ _ _ _ => exact Set.singleton_nonempty _

end AddressWallet

/-! ### The merge -/

namespace GroupState

/-- The sets on the heap. -/
def sets (st : GroupState) : Set (Set CTxDestination) :=
  {s | ∃ p elements, st.heap.lookup p = some elements ∧ Grouping.toSet elements = s}

/-- The heap and its tables hold a family of disjoint sets. -/
structure Represents (st : GroupState) (family : Set (Set CTxDestination)) : Prop where
  unique_iff : ∀ p, p ∈ st.uniqueGroupings ↔ p ∈ st.heap
  nodup : st.uniqueGroupings.Nodup
  setmap_iff : ∀ a p, st.setmap.lookup a = some p ↔ ∃ elements, st.heap.lookup p = some elements ∧ a ∈ elements
  components : IsComponents family st.sets

lemma represents_empty : Represents .empty ∅ where
  unique_iff p := iff_of_false not_mem_nil notMem_empty
  nodup := nodup_nil
  setmap_iff a p := by
    have hnone : empty.setmap.lookup a = none := lookup_empty a
    have hheap : empty.heap.lookup p = none := lookup_empty p
    rw [hnone, hheap]
    exact iff_of_false nofun fun ⟨_, h, _⟩ => nomatch h
  components := by
    have hsets : empty.sets = ∅ := by
      refine Set.eq_empty_of_forall_notMem ?_
      rintro s ⟨p, elements, hlookup, -⟩
      rw [empty, lookup_empty] at hlookup
      cases hlookup
    rw [hsets]
    exact isComponents_empty

lemma hits_spec (st : GroupState) (grouping : Grouping) :
    (∀ p, p ∈ st.hits grouping ↔ ∃ a ∈ grouping, st.setmap.lookup a = some p) ∧ (st.hits grouping).Nodup := by
  have hrun : ∀ (l : Grouping) (hits : List ℕ), hits.Nodup →
      (∀ p, p ∈ l.foldl (fun hits address =>
        match st.setmap.lookup address with
        | some p => insertUnique (· ≤ ·) p hits
        | none => hits) hits ↔ p ∈ hits ∨ ∃ a ∈ l, st.setmap.lookup a = some p) ∧
      (l.foldl (fun hits address =>
        match st.setmap.lookup address with
        | some p => insertUnique (· ≤ ·) p hits
        | none => hits) hits).Nodup := by
    intro l
    induction l with
    | nil =>
      intro hits hnodup
      exact ⟨fun p => by simp, hnodup⟩
    | cons a l ih =>
      intro hits hnodup
      rw [foldl_cons]
      cases hlookup : st.setmap.lookup a with
      | some q =>
        dsimp only
        obtain ⟨hmem, hnodup'⟩ := ih (insertUnique (· ≤ ·) q hits) (nodup_insertUnique hnodup)
        refine ⟨fun p => ?_, hnodup'⟩
        rw [hmem, mem_insertUnique, exists_mem_cons_iff, hlookup, Option.some.injEq, eq_comm]
        tauto
      | none =>
        dsimp only
        obtain ⟨hmem, hnodup'⟩ := ih hits hnodup
        refine ⟨fun p => ?_, hnodup'⟩
        rw [hmem, exists_mem_cons_iff, hlookup]
        simp
  obtain ⟨hmem, hnodup⟩ := hrun grouping [] nodup_nil
  exact ⟨fun p => (hmem p).trans (or_iff_right not_mem_nil), hnodup⟩

lemma foldlM_mergeHit {hits : List ℕ} (hnodup : hits.Nodup) (st : GroupState) (grouping : Grouping)
    (hunique : st.uniqueGroupings.Nodup) (hheap : ∀ p ∈ hits, p ∈ st.heap) :
    ∃ st' elements, hits.foldlM mergeHit (st, grouping) = some (st', elements) ∧
      (∀ p, st'.heap.lookup p = if p ∈ hits then none else st.heap.lookup p) ∧
      st'.nAllocated = st.nAllocated ∧ st'.setmap = st.setmap ∧ st'.uniqueGroupings.Nodup ∧
      (∀ p, p ∈ st'.uniqueGroupings ↔ p ∈ st.uniqueGroupings ∧ p ∉ hits) ∧
      ∀ a, a ∈ elements ↔ a ∈ grouping ∨ ∃ p ∈ hits, ∃ e, st.heap.lookup p = some e ∧ a ∈ e := by
  induction hits generalizing st grouping with
  | nil => exact ⟨st, grouping, rfl, fun p => by simp, rfl, rfl, hunique, fun p => by simp, fun a => by simp⟩
  | cons hit hits ih =>
    obtain ⟨hnew, hnodup⟩ := nodup_cons.mp hnodup
    obtain ⟨e, he⟩ := mem_iff.mp (hheap hit mem_cons_self)
    have hstep : mergeHit (st, grouping) hit = some
        ({ st with heap := st.heap.erase hit, uniqueGroupings := st.uniqueGroupings.erase hit },
          e.foldl insertAddress grouping) := by
      rw [mergeHit, he]
      rfl
    have hlookup : ∀ p, (st.heap.erase hit).lookup p = if p = hit then none else st.heap.lookup p := by
      intro p
      split_ifs with heq
      · rw [heq]
        exact lookup_erase hit st.heap
      · exact lookup_erase_ne heq
    obtain ⟨st', elements, hrun, hheap', hcount, hsetmap, hunique', hmem, helements⟩ :=
      ih hnodup { st with heap := st.heap.erase hit, uniqueGroupings := st.uniqueGroupings.erase hit }
        (e.foldl insertAddress grouping) (hunique.erase hit) fun p hp => by
          refine mem_erase.mpr ⟨?_, hheap p (mem_cons_of_mem hit hp)⟩
          rintro rfl
          exact hnew hp
    dsimp only at hheap' hcount hsetmap hmem helements
    refine ⟨st', elements, ?_, fun p => ?_, hcount, hsetmap, hunique', fun p => ?_, fun a => ?_⟩
    · rw [foldlM_cons, hstep]
      exact hrun
    · rw [hheap', hlookup]
      simp only [mem_cons]
      split_ifs <;> tauto
    · rw [hmem, hunique.mem_erase_iff, mem_cons]
      tauto
    · have htaken : a ∈ e.foldl insertAddress grouping ↔ a ∈ e ∨ a ∈ grouping := mem_foldl_insertUnique
      rw [helements, htaken, exists_mem_cons_iff, he]
      have hrest : (∃ p ∈ hits, ∃ e, (st.heap.erase hit).lookup p = some e ∧ a ∈ e) ↔
          ∃ p ∈ hits, ∃ e, st.heap.lookup p = some e ∧ a ∈ e := by
        refine exists_congr fun p => and_congr_right fun hp => ?_
        rw [hlookup, if_neg]
        rintro rfl
        exact hnew hp
      rw [hrest]
      have hhit : (∃ e', some e = some e' ∧ a ∈ e') ↔ a ∈ e := by simp
      rw [hhit]
      exact (or_congr_left or_comm).trans or_assoc

lemma lookup_foldl_insert (elements : Grouping) (merged : ℕ) (setmap : Finmap (fun _ : CTxDestination => ℕ))
    (a : CTxDestination) :
    (elements.foldl (fun setmap element => setmap.insert element merged) setmap).lookup a =
      if a ∈ elements then some merged else setmap.lookup a := by
  induction elements generalizing setmap with
  | nil => simp
  | cons b elements ih =>
    rw [foldl_cons, ih]
    by_cases hmem : a ∈ elements
    · rw [if_pos hmem, if_pos (mem_cons_of_mem b hmem)]
    · rw [if_neg hmem]
      by_cases heq : a = b
      · rw [heq, if_pos mem_cons_self, lookup_insert]
      · rw [if_neg fun h => (mem_cons.mp h).elim heq hmem, lookup_insert_of_ne _ heq]

section Merge

variable {st st' : GroupState} {family : Set (Set CTxDestination)} {grouping elements : Grouping} {merged p : ℕ}

/-- A hit is a group that shares an address with the grouping. -/
lemma Represents.mem_hits_iff (h : st.Represents family) {e : Grouping} (he : st.heap.lookup p = some e) :
    p ∈ st.hits grouping ↔ (Grouping.toSet e ∩ grouping.toSet).Nonempty := by
  rw [(hits_spec st grouping).1]
  constructor
  · rintro ⟨a, ha, hlookup⟩
    obtain ⟨e', he', hae⟩ := (h.setmap_iff a p).mp hlookup
    rw [he] at he'
    cases he'
    exact ⟨a, hae, ha⟩
  · rintro ⟨a, hae, ha⟩
    exact ⟨a, ha, (h.setmap_iff a p).mpr ⟨e, he, hae⟩⟩

lemma Represents.hit_mem (h : st.Represents family) (hp : p ∈ st.hits grouping) : p ∈ st.heap := by
  obtain ⟨a, -, hlookup⟩ := ((hits_spec st grouping).1 p).mp hp
  obtain ⟨e, he, -⟩ := (h.setmap_iff a p).mp hlookup
  exact mem_of_lookup_eq_some he

/-- The hits are gone, and a new group has their addresses and those of the grouping. -/
structure Merged (st st' : GroupState) (grouping elements : Grouping) (merged : ℕ) : Prop where
  fresh : merged ∉ st.heap
  lookup : ∀ p, st'.heap.lookup p =
    if p = merged then some elements else if p ∈ st.hits grouping then none else st.heap.lookup p
  unique : ∀ p, p ∈ st'.uniqueGroupings ↔ p = merged ∨ p ∈ st.uniqueGroupings ∧ p ∉ st.hits grouping
  nodup : st'.uniqueGroupings.Nodup
  setmap : ∀ a, st'.setmap.lookup a = if a ∈ elements then some merged else st.setmap.lookup a
  mem_elements : ∀ a, a ∈ elements ↔
    a ∈ grouping ∨ ∃ p ∈ st.hits grouping, ∃ e, st.heap.lookup p = some e ∧ a ∈ e

lemma Represents.exists_merged (h : st.Represents family) (alloc : Allocator) (grouping : Grouping) :
    ∃ st' elements merged, st.mergeGrouping alloc grouping = some st' ∧ Merged st st' grouping elements merged := by
  obtain ⟨st', elements, hrun, hheap', -, hsetmap, hunique', hmem, helements⟩ :=
    foldlM_mergeHit (hits_spec st grouping).2 st grouping h.nodup fun _ hp => h.hit_mem hp
  refine ⟨_, elements, alloc.address st.nAllocated st.heap.keys, by rw [GroupState.mergeGrouping, hrun]; rfl, ?_⟩
  constructor
  case fresh =>
    rw [← Finmap.mem_keys]
    exact alloc.address_fresh _ _
  case lookup =>
    intro p
    by_cases heq : p = alloc.address st.nAllocated st.heap.keys
    · rw [if_pos heq, heq, lookup_insert]
    · rw [if_neg heq, lookup_insert_of_ne _ heq, hheap']
  case unique =>
    intro p
    rw [mem_insertUnique, hmem]
  case nodup => exact nodup_insertUnique hunique'
  case setmap =>
    intro a
    dsimp only
    rw [lookup_foldl_insert, hsetmap]
  case mem_elements => exact helements

namespace Merged

variable (hm : Merged st st' grouping elements merged) (h : st.Represents family)

include hm h

lemma setmap_iff (a : CTxDestination) (p : ℕ) :
    st'.setmap.lookup a = some p ↔ ∃ elements, st'.heap.lookup p = some elements ∧ a ∈ elements := by
  rw [hm.setmap, hm.lookup]
  by_cases heq : p = merged
  · rw [if_pos heq, heq]
    by_cases ha : a ∈ elements
    · rw [if_pos ha]
      exact iff_of_true rfl ⟨elements, rfl, ha⟩
    · rw [if_neg ha]
      refine iff_of_false (fun hold => ?_) ?_
      · obtain ⟨e, he, -⟩ := (h.setmap_iff a merged).mp hold
        exact hm.fresh (mem_of_lookup_eq_some he)
      · rintro ⟨e, he, hae⟩
        cases he
        exact ha hae
  · rw [if_neg heq]
    by_cases ha : a ∈ elements
    · -- The group of the address was a hit, and is gone.
      rw [if_pos ha]
      refine iff_of_false (fun hnew => heq (Option.some.inj hnew).symm) ?_
      rintro ⟨e, he, hae⟩
      split_ifs at he with hp
      have hp' := (h.setmap_iff a p).mpr ⟨e, he, hae⟩
      refine hp (((hits_spec st grouping).1 p).mpr ?_)
      obtain hag | ⟨q, hq, e', he', hae'⟩ := (hm.mem_elements a).mp ha
      · exact ⟨a, hag, hp'⟩
      · rw [(h.setmap_iff a q).mpr ⟨e', he', hae'⟩] at hp'
        cases hp'
        exact ((hits_spec st grouping).1 _).mp hq
    · rw [if_neg ha, h.setmap_iff]
      refine exists_congr fun e => and_congr_left fun hae => ?_
      by_cases hp : p ∈ st.hits grouping
      · rw [if_pos hp]
        refine iff_of_false (fun he => ha ?_) nofun
        exact (hm.mem_elements a).mpr (Or.inr ⟨p, hp, e, he, hae⟩)
      · rw [if_neg hp]

lemma toSet_elements : elements.toSet =
    grouping.toSet ∪ {x | ∃ s ∈ st.sets, x ∈ s ∧ (s ∩ grouping.toSet).Nonempty} := by
  ext a
  refine (hm.mem_elements a).trans (or_congr Iff.rfl ⟨?_, ?_⟩)
  · rintro ⟨p, hp, e, he, hae⟩
    exact ⟨_, ⟨p, e, he, rfl⟩, hae, (h.mem_hits_iff he).mp hp⟩
  · rintro ⟨_, ⟨p, e, he, rfl⟩, hae, hnear⟩
    exact ⟨p, (h.mem_hits_iff he).mpr hnear, e, he, hae⟩

lemma sets_eq : st'.sets = mergeComponents grouping.toSet st.sets := by
  ext s
  constructor
  · rintro ⟨p, e, he, rfl⟩
    rw [hm.lookup] at he
    split_ifs at he with heq hp
    · cases he
      exact Or.inl (hm.toSet_elements h)
    · exact Or.inr ⟨⟨p, e, he, rfl⟩, fun hnear => hp ((h.mem_hits_iff he).mpr hnear)⟩
  · rintro (rfl | ⟨⟨p, e, he, rfl⟩, hfar⟩)
    · exact ⟨merged, elements, (hm.lookup merged).trans (if_pos rfl), hm.toSet_elements h⟩
    · refine ⟨p, e, ?_, rfl⟩
      rw [hm.lookup, if_neg, if_neg fun hp => hfar ((h.mem_hits_iff he).mp hp)]
      · exact he
      · rintro rfl
        exact hm.fresh (mem_of_lookup_eq_some he)

theorem represents (hne : grouping.toSet.Nonempty) : st'.Represents (insert grouping.toSet family) where
  unique_iff p := by
    rw [hm.unique, h.unique_iff, mem_iff, mem_iff, hm.lookup]
    by_cases heq : p = merged
    · simp [heq]
    · by_cases hp : p ∈ st.hits grouping
      · simp [heq, hp]
      · simp [heq, hp]
  nodup := hm.nodup
  setmap_iff := hm.setmap_iff h
  components := by
    rw [hm.sets_eq h]
    exact h.components.merge hne

end Merged

lemma Represents.mergeGrouping (h : st.Represents family) (alloc : Allocator) (hne : grouping.toSet.Nonempty) :
    ∃ st', st.mergeGrouping alloc grouping = some st' ∧ st'.Represents (insert grouping.toSet family) := by
  obtain ⟨st', elements, merged, hrun, hm⟩ := h.exists_merged alloc grouping
  exact ⟨st', hrun, hm.represents h hne⟩

end Merge

lemma Represents.foldlM_mergeGrouping {st : GroupState} {family : Set (Set CTxDestination)} (h : st.Represents family)
    (alloc : Allocator) {groupings : List Grouping} (hne : ∀ g ∈ groupings, g.toSet.Nonempty) :
    ∃ st', groupings.foldlM (GroupState.mergeGrouping alloc) st = some st' ∧
      st'.Represents (family ∪ {s | ∃ g ∈ groupings, g.toSet = s}) := by
  induction groupings generalizing st family with
  | nil => exact ⟨st, rfl, by simpa using h⟩
  | cons g groupings ih =>
    obtain ⟨st₁, hfirst, h₁⟩ := h.mergeGrouping alloc (hne g mem_cons_self)
    obtain ⟨st', hrun, h'⟩ := ih h₁ fun g' hg' => hne g' (mem_cons_of_mem g hg')
    refine ⟨st', by rw [foldlM_cons, hfirst]; exact hrun, ?_⟩
    have hfamily : insert g.toSet family ∪ {s | ∃ g ∈ groupings, g.toSet = s} =
        family ∪ {s | ∃ g' ∈ g :: groupings, g'.toSet = s} := by
      ext s
      simp only [Set.mem_union, Set.mem_insert_iff, Set.mem_ofPred_eq, exists_mem_cons_iff]
      rw [eq_comm]
      tauto
    rwa [hfamily] at h'

lemma foldlM_collect {pointers : List ℕ} (hnodup : pointers.Nodup) {ret : List Grouping} (hret : ret.Nodup)
    (heap : Finmap (fun _ : ℕ => Grouping)) (hheap : ∀ p ∈ pointers, p ∈ heap) :
    ∃ ret' heap', pointers.foldlM collect (ret, heap) = some (ret', heap') ∧ ret'.Nodup ∧
      ∀ g, g ∈ ret' ↔ g ∈ ret ∨ ∃ p ∈ pointers, heap.lookup p = some g := by
  induction pointers generalizing ret heap with
  | nil => exact ⟨ret, heap, rfl, hret, fun g => by simp⟩
  | cons p pointers ih =>
    obtain ⟨hnew, hnodup⟩ := nodup_cons.mp hnodup
    obtain ⟨e, he⟩ := mem_iff.mp (hheap p mem_cons_self)
    have hret' : (insertGrouping ret e).Nodup := nodup_insertUnique hret
    obtain ⟨ret', heap', hrun, hnodup', hmem⟩ := ih hnodup hret' (heap.erase p) fun q hq => by
      refine mem_erase.mpr ⟨?_, hheap q (mem_cons_of_mem p hq)⟩
      rintro rfl
      exact hnew hq
    refine ⟨ret', heap', ?_, hnodup', fun g => ?_⟩
    · have hstep : collect (ret, heap) p = some (insertGrouping ret e, heap.erase p) := by
        rw [collect, he]
        rfl
      rw [foldlM_cons, hstep]
      exact hrun
    · have hrest : (∃ q ∈ pointers, (heap.erase p).lookup q = some g) ↔ ∃ q ∈ pointers, heap.lookup q = some g := by
        refine exists_congr fun q => and_congr_right fun hq => ?_
        rw [lookup_erase_ne]
        rintro rfl
        exact hnew hq
      rw [hmem, hrest, mem_insertGrouping, exists_mem_cons_iff, he, Option.some.injEq, eq_comm]
      tauto

end GroupState

/-- The groupings are the connected components of the initial groupings: no pointer dangles, the
sets are not empty and pairwise disjoint, together they have the addresses of the initial groupings,
and two addresses are in the same set exactly if a chain of initial groupings links them. -/
theorem addressGroupings_components (crypto : ScriptCrypto) (alloc : Allocator) (w : AddressWallet sha256) :
    ∃ ret, w.getAddressGroupings crypto alloc = some ret ∧
      (∀ s ∈ ret, s ≠ []) ∧
      ret.Pairwise List.Disjoint ∧
      (∀ a, (∃ s ∈ ret, a ∈ s) ↔ ∃ g, w.InitialGrouping crypto g ∧ a ∈ g) ∧
      ∀ a b, (∃ s ∈ ret, a ∈ s ∧ b ∈ s) ↔ LinkedBy {g | w.InitialGrouping crypto g} a b := by
  have hne : ∀ g ∈ w.initialGroupings crypto, g.toSet.Nonempty := fun g hg =>
    ((AddressWallet.mem_initialGroupings g.toSet).mp ⟨g, hg, rfl⟩).nonempty
  obtain ⟨st, hmerge, hst⟩ := GroupState.represents_empty.foldlM_mergeGrouping alloc hne
  have hfamily : (∅ : Set (Set CTxDestination)) ∪ {s | ∃ g ∈ w.initialGroupings crypto, g.toSet = s} =
      {g | w.InitialGrouping crypto g} := by
    rw [Set.empty_union]
    exact Set.ext AddressWallet.mem_initialGroupings
  rw [hfamily] at hst
  obtain ⟨ret, heap', hcollect, hnodup, hmem⟩ := GroupState.foldlM_collect hst.nodup (nodup_nil (α := Grouping))
    st.heap fun p hp => (hst.unique_iff p).mp hp
  have hret : ∀ s, s ∈ ret ↔ ∃ p, st.heap.lookup p = some s := by
    intro s
    rw [hmem, or_iff_right not_mem_nil]
    refine ⟨fun ⟨p, _, hp⟩ => ⟨p, hp⟩, fun ⟨p, hp⟩ => ⟨p, (hst.unique_iff p).mpr ?_, hp⟩⟩
    exact mem_of_lookup_eq_some hp
  refine ⟨ret, ?_, fun s hs => ?_, ?_, fun a => ?_, fun a b => ?_⟩
  · rw [AddressWallet.getAddressGroupings, hmerge]
    change (do
      let collected ← st.uniqueGroupings.foldlM GroupState.collect ([], st.heap)
      return collected.1) = some ret
    rw [hcollect]
    rfl
  · obtain ⟨p, hp⟩ := (hret s).mp hs
    obtain ⟨a, ha⟩ := hst.components.nonempty _ ⟨p, s, hp, rfl⟩
    exact ne_nil_of_mem ha
  · refine hnodup.pairwise_of_forall_ne fun s hs t ht hst' a has hat => hst' ?_
    obtain ⟨p, hp⟩ := (hret s).mp hs
    obtain ⟨q, hq⟩ := (hret t).mp ht
    -- Both are the set that the address points to.
    have hsp := (hst.setmap_iff a p).mpr ⟨s, hp, has⟩
    have htq := (hst.setmap_iff a q).mpr ⟨t, hq, hat⟩
    rw [hsp] at htq
    cases htq
    rw [hp] at hq
    exact Option.some.inj hq
  · refine Iff.trans ?_ (hst.components.mem_iff a)
    constructor
    · rintro ⟨s, hs, ha⟩
      obtain ⟨p, hp⟩ := (hret s).mp hs
      exact ⟨_, ⟨p, s, hp, rfl⟩, ha⟩
    · rintro ⟨_, ⟨p, s, hp, rfl⟩, ha⟩
      exact ⟨s, (hret s).mpr ⟨p, hp⟩, ha⟩
  · refine Iff.trans ?_ (hst.components.linked_iff a b)
    constructor
    · rintro ⟨s, hs, hab⟩
      obtain ⟨p, hp⟩ := (hret s).mp hs
      exact ⟨_, ⟨p, s, hp, rfl⟩, hab⟩
    · rintro ⟨_, ⟨p, s, hp, rfl⟩, hab⟩
      exact ⟨s, (hret s).mpr ⟨p, hp⟩, hab⟩

/-- The lowest address above all that are in use. -/
def highestAddress : Allocator where
  address _ live := live.sup id + 1
  address_fresh _ _ h := Nat.not_succ_le_self _ (Finset.le_sup (f := id) h)

def keyAddress (n : UInt8) : CTxDestination := .keyID ⟨List.replicate 20 n, length_replicate⟩

def plainPayment (vin : List CTxIn) (payees : List UInt8) : CMutableTransaction :=
  ⟨BaseBlob.null 128, BaseBlob.null 128, BaseBlob.null 128, BaseBlob.null 128, 1, vin,
    payees.map fun n => ⟨50, getScriptForDestination (keyAddress n)⟩, 0⟩

def paidTx : CTransaction cSHA256 :=
  ⟨plainPayment [⟨COutPoint.null, [0x51, 0x51], SEQUENCE_FINAL, []⟩] [1, 2, 2, 3, 4], _, computeHash_eq null_lt null_lt⟩

/-- Spends two outputs of `paidTx` to somebody else. -/
def spendingTx (n : UInt32) : CTransaction cSHA256 :=
  ⟨plainPayment [⟨⟨paidTx.hash, n⟩, [], SEQUENCE_FINAL, []⟩, ⟨⟨paidTx.hash, n + 1⟩, [], SEQUENCE_FINAL, []⟩] [9], _,
    computeHash_eq null_lt null_lt⟩

/-- Two transactions spend from the addresses 1 and 2 and from 2 and 3; nothing is spent from 4. -/
def sharedWallet : AddressWallet cSHA256 where
  mapWallet := [(paidTx.hash, ⟨paidTx⟩), ((spendingTx 0).hash, ⟨spendingTx 0⟩), ((spendingTx 2).hash, ⟨spendingTx 2⟩)]
  isMine scriptPubKey := scriptPubKey ≠ getScriptForDestination (keyAddress 9)
  mapAddressBook := [1, 2, 3, 4].map keyAddress

def plainCrypto : ScriptCrypto := ⟨fun _ => BaseBlob.null 20, fun _ => BaseBlob.null 20, cSHA256, fun _ => true⟩

theorem addressGroupings_components_sharedWallet :
    sharedWallet.getAddressGroupings plainCrypto highestAddress =
        some [[keyAddress 1, keyAddress 2, keyAddress 3], [keyAddress 4]] ∧
      LinkedBy {g | sharedWallet.InitialGrouping plainCrypto g} (keyAddress 1) (keyAddress 3) := by
  have hret : sharedWallet.getAddressGroupings plainCrypto highestAddress =
      some [[keyAddress 1, keyAddress 2, keyAddress 3], [keyAddress 4]] := by decide +kernel
  obtain ⟨ret, hrun, -, -, -, hlinked⟩ := addressGroupings_components plainCrypto highestAddress sharedWallet
  obtain rfl := Option.some.inj (hret.symm.trans hrun)
  exact ⟨hret, (hlinked _ _).mp ⟨_, mem_cons_self, by decide, by decide⟩⟩

end MutableBitcoin
