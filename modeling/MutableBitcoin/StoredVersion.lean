import MutableBitcoin.Lib.KeyMap
import MutableBitcoin.UChain

/-!
# Stored versions of a transaction

A stored transaction is the one that was received or a redaction of it, and every stored version
gives the same next version.
-/

namespace MutableBitcoin
open Lib CChamHash List Option

variable {sha256 : Bytes → Uint256}

section Redaction

/-- No witness, and an `OP_RETURN` script whose redaction has the same size. -/
def Plain (tx : CTransaction sha256) : Prop :=
  tx.hasWitness = false ∧ ∃ k, firstOpReturn tx.vout = some k ∧
    2 ≤ scriptSizeAt tx.vout k ∧ scriptSizeAt tx.vout k ≤ 77

variable {tx tx' newTX : CTransaction sha256} {op : RedactOp}

lemma withResult_eq {α β : Type} {f : α → Option β} {a : α} {b : β} (h : f a = some b) :
    withResult f a = some ⟨b, h⟩ := by
  have hsome : (f a).isSome = true := by
    rw [h]
    rfl
  unfold withResult
  rw [dif_pos hsome]
  simp only [h, get_some]

lemma redactTransaction_eq_some_iff :
    redactTransaction op tx = some newTX ↔
      redact sha256 op tx.toCMutableTransaction = some newTX.toCMutableTransaction := by
  simp only [redactTransaction, bind_eq_bind, bind_eq_some_iff]
  constructor
  · rintro ⟨newTXM, hred, hash, -, heq⟩
    obtain rfl := some.inj heq
    exact hred
  · intro hred
    exact ⟨_, hred, ⟨newTX.hash, newTX.computeHash_eq⟩, withResult_eq _, rfl⟩

lemma redactTransaction_isSome (hbelow : tx.RandomnessBelow) {k : ℕ}
    (hk : firstOpReturn tx.vout = some k) : ∃ newTX, redactTransaction op tx = some newTX := by
  have hid := idValue_bounds sha256 hbelow
  have hout := outputsValue_bounds sha256 hbelow
  exact ⟨makeTransaction sha256 _ (redactTo_randomnessBelow sha256 op k _ hid hout),
    redactTransaction_eq_some_iff.mpr (redact_eq hbelow op hk)⟩

/-- The received transaction or a redaction of it. -/
inductive VersionOf (tx : CTransaction sha256) : CTransaction sha256 → Prop where
  | received : VersionOf tx tx
  | redacted {op : RedactOp} {tx' : CTransaction sha256} :
      redactTransaction op tx = some tx' → VersionOf tx tx'

variable {tx₀ : CTransaction sha256}

lemma exists_redactsTo (h : redactTransaction op tx₀ = some tx) :
    ∃ k txout, RedactsTo op tx₀ tx k txout := by
  rw [redactTransaction_eq_some_iff] at h
  obtain ⟨k, hk, -⟩ := bind_eq_some_iff.mp h
  obtain ⟨hlt, -⟩ := findIdx?_eq_some_iff_getElem.mp hk
  exact ⟨k, _, hk, getElem?_eq_getElem hlt, h⟩

lemma VersionOf.hash_eq (hplain : Plain tx₀) (h : VersionOf tx₀ tx) : tx.hash = tx₀.hash := by
  cases h with
  | received => rfl
  | redacted hred =>
    obtain ⟨k, txout, hto⟩ := exists_redactsTo hred
    exact hto.hash_eq_of_not_hasWitness hplain.1

lemma VersionOf.isCoinBase_eq (h : VersionOf tx₀ tx) : tx.isCoinBase = tx₀.isCoinBase := by
  cases h with
  | received => rfl
  | redacted hred =>
    obtain ⟨k, txout, hto⟩ := exists_redactsTo hred
    exact hto.isCoinBase_eq

lemma VersionOf.firstOpReturn_eq (h : VersionOf tx₀ tx) :
    firstOpReturn tx.vout = firstOpReturn tx₀.vout := by
  cases h with
  | received => rfl
  | redacted hred =>
    obtain ⟨k, txout, hto⟩ := exists_redactsTo hred
    rw [hto.vout_eq, hto.index]
    exact firstOpReturn_setScriptPubKey hto.index (isOpReturn_redactedScript _ _)

lemma VersionOf.redactTransaction_eq (hplain : Plain tx₀) (h : VersionOf tx₀ tx) (op : RedactOp) :
    redactTransaction op tx = redactTransaction op tx₀ := by
  cases h with
  | received => rfl
  | redacted hred =>
    rename_i op₀
    rw [redactTransaction_eq_some_iff] at hred
    obtain ⟨-, k, hk, hsz⟩ := hplain
    have hbelow : tx₀.RandomnessBelow :=
      randomnessBelow_of_redactAt ((redact_eq_redactAt op₀ hk).symm.trans hred)
    have hid : RedactionOf sha256 tx₀.toCMutableTransaction k tx₀.toCMutableTransaction :=
      ⟨hbelow, hk, rfl, fun _ => rfl⟩
    obtain ⟨next, hnext, hof⟩ := hid.step hsz op₀
    obtain rfl := some.inj (hnext.symm.trans hred)
    unfold redactTransaction
    rw [hof.redact op]

end Redaction

section Stored

variable (index : Uint256 → Option ℕ)

/-- The index leads to this transaction of the block. -/
def IsPlace (block : CBlock sha256) (b i : ℕ) (hash : Uint256) : Prop :=
  index hash = some b ∧ block.vtx.findIdx? (fun tx => tx.hash = hash) = some i

/-- The blocks `disk` hold the received blocks `disk₀`, with redactions of exactly the transactions
whose ids are in `A`. -/
structure StoredVersion (A : Uint256 → Prop) (disk₀ disk : List (CBlock sha256)) : Prop where
  length : disk.length = disk₀.length
  ids : ∀ {b : ℕ} {B₀ B : CBlock sha256}, disk₀[b]? = some B₀ → disk[b]? = some B →
    B.vtx.map (·.hash) = B₀.vtx.map (·.hash)
  redacted : ∀ {b i : ℕ} {B₀ B : CBlock sha256} {tx₀ tx : CTransaction sha256},
    disk₀[b]? = some B₀ → disk[b]? = some B → B₀.vtx[i]? = some tx₀ → B.vtx[i]? = some tx →
    A tx₀.hash → IsPlace index B₀ b i tx₀.hash → ∃ op, redactTransaction op tx₀ = some tx
  received : ∀ {b i : ℕ} {B₀ B : CBlock sha256} {tx₀ tx : CTransaction sha256},
    disk₀[b]? = some B₀ → disk[b]? = some B → B₀.vtx[i]? = some tx₀ → B.vtx[i]? = some tx →
    ¬(A tx₀.hash ∧ IsPlace index B₀ b i tx₀.hash) → tx = tx₀

variable {index}

lemma storedVersion_refl (disk : List (CBlock sha256)) :
    StoredVersion index (fun _ => False) disk disk where
  length := rfl
  ids h₀ h := by
    obtain rfl := some.inj (h₀.symm.trans h)
    rfl
  redacted _ _ _ _ hA := hA.elim
  received h₀ h htx₀ htx _ := by
    obtain rfl := some.inj (h₀.symm.trans h)
    exact some.inj (htx.symm.trans htx₀)

lemma getTransaction_eq_some_iff {disk : List (CBlock sha256)} {hash : Uint256}
    {tx : CTransaction sha256} {b : ℕ} :
    getTransaction index disk hash = some (tx, b) ↔
      ∃ B i, disk[b]? = some B ∧ IsPlace index B b i hash ∧ B.vtx[i]? = some tx := by
  simp only [getTransaction, bind_eq_bind, bind_eq_some_iff, IsPlace]
  constructor
  · rintro ⟨b', hb, B, hB, i, hi, t, ht, heq⟩
    obtain ⟨rfl, rfl⟩ := Prod.mk.inj (some.inj heq)
    exact ⟨B, i, hB, ⟨hb, hi⟩, ht⟩
  · rintro ⟨B, i, hB, ⟨hb, hi⟩, ht⟩
    exact ⟨b, hb, B, hB, i, hi, tx, ht, rfl⟩

lemma hash_of_isPlace {B : CBlock sha256} {b i : ℕ} {hash : Uint256} {tx : CTransaction sha256}
    (h : IsPlace index B b i hash) (htx : B.vtx[i]? = some tx) : tx.hash = hash := by
  obtain ⟨hlt, heq, -⟩ := findIdx?_eq_some_iff_getElem.mp h.2
  obtain rfl : B.vtx[i] = tx := by simpa [getElem?_eq_getElem hlt] using htx
  simpa using heq

lemma isPlace_congr {B B₀ : CBlock sha256} (hids : B.vtx.map (·.hash) = B₀.vtx.map (·.hash))
    {b i : ℕ} {hash : Uint256} : IsPlace index B b i hash ↔ IsPlace index B₀ b i hash := by
  have h : ∀ B : CBlock sha256, B.vtx.findIdx? (fun tx => tx.hash = hash) =
      (B.vtx.map (·.hash)).findIdx? (fun x => x = hash) := by
    intro B
    rw [findIdx?_map]
    rfl
  unfold IsPlace
  rw [h B, h B₀, hids]

variable {A : Uint256 → Prop} {disk₀ disk : List (CBlock sha256)}

namespace StoredVersion

variable (h : StoredVersion index A disk₀ disk)

include h

lemma exists_block {b : ℕ} {B₀ : CBlock sha256} (hB₀ : disk₀[b]? = some B₀) :
    ∃ B, disk[b]? = some B ∧ B.vtx.length = B₀.vtx.length := by
  have hlt : b < disk.length := by
    rw [h.length]
    exact (List.getElem?_eq_some_iff.mp hB₀).1
  refine ⟨disk[b], getElem?_eq_getElem hlt, ?_⟩
  have := congrArg List.length (h.ids hB₀ (getElem?_eq_getElem hlt))
  simpa using this

lemma getTransaction_of_some {hash : Uint256} {tx₀ : CTransaction sha256} {b : ℕ}
    (h₀ : getTransaction index disk₀ hash = some (tx₀, b)) :
    ∃ tx, getTransaction index disk hash = some (tx, b) ∧ VersionOf tx₀ tx ∧
      (A hash → ∃ op, redactTransaction op tx₀ = some tx) ∧ (¬A hash → tx = tx₀) := by
  obtain ⟨B₀, i, hB₀, hplace, htx₀⟩ := getTransaction_eq_some_iff.mp h₀
  obtain ⟨B, hB, hlen⟩ := h.exists_block hB₀
  have hlt : i < B.vtx.length := by
    rw [hlen]
    exact (List.getElem?_eq_some_iff.mp htx₀).1
  have htx : B.vtx[i]? = some B.vtx[i] := getElem?_eq_getElem hlt
  have hash₀ := hash_of_isPlace hplace htx₀
  have hget : getTransaction index disk hash = some (B.vtx[i], b) :=
    getTransaction_eq_some_iff.mpr ⟨B, i, hB, (isPlace_congr (h.ids hB₀ hB)).mpr hplace, htx⟩
  subst hash₀
  have hred := fun hA => h.redacted hB₀ hB htx₀ htx hA hplace
  have hrec := fun hA : ¬A tx₀.hash => h.received hB₀ hB htx₀ htx (fun hc => hA hc.1)
  refine ⟨B.vtx[i], hget, ?_, hred, hrec⟩
  by_cases hA : A tx₀.hash
  · obtain ⟨op, hop⟩ := hred hA
    exact .redacted hop
  · rw [hrec hA]
    exact .received

lemma getTransaction_of_none {hash : Uint256} (h₀ : getTransaction index disk₀ hash = none) :
    getTransaction index disk hash = none := by
  rw [eq_none_iff_forall_ne_some] at h₀ ⊢
  rintro ⟨tx, b⟩ hget
  obtain ⟨B, i, hB, hplace, htx⟩ := getTransaction_eq_some_iff.mp hget
  have hlt : b < disk₀.length := by
    rw [← h.length]
    exact (List.getElem?_eq_some_iff.mp hB).1
  have hB₀ : disk₀[b]? = some disk₀[b] := getElem?_eq_getElem hlt
  have hids := h.ids hB₀ hB
  have hlt' : i < disk₀[b].vtx.length := by
    have := congrArg List.length hids
    simp only [length_map] at this
    rw [← this]
    exact (List.getElem?_eq_some_iff.mp htx).1
  exact h₀ (disk₀[b].vtx[i], b) (getTransaction_eq_some_iff.mpr
    ⟨disk₀[b], i, hB₀, (isPlace_congr hids).mp hplace, getElem?_eq_getElem hlt'⟩)

end StoredVersion

section Rewrite

variable {disk' : List (CBlock sha256)} {hash : Uint256} {tx newTX : CTransaction sha256} {b : ℕ}

/-- The stored block `B` is replaced by `B'`, which differs only at position `i`. -/
structure Rewrites (disk disk' : List (CBlock sha256)) (b i : ℕ) (newTX : CTransaction sha256) :
    Prop where
  length : disk'.length = disk.length
  stored : ∃ B', disk'[b]? = some B' ∧ B'.vtx[i]? = some newTX
  ids : ∀ {c : ℕ} {B B' : CBlock sha256}, disk[c]? = some B → disk'[c]? = some B' →
    B'.vtx.map (·.hash) = B.vtx.map (·.hash)
  others : ∀ {c j : ℕ} {B B' : CBlock sha256}, disk[c]? = some B → disk'[c]? = some B' →
    ¬(c = b ∧ j = i) → B'.vtx[j]? = B.vtx[j]?

lemma exists_rewriteDisk {B : CBlock sha256} {i : ℕ} (hB : disk[b]? = some B)
    (hplace : IsPlace index B b i hash) (htx : B.vtx[i]? = some tx) (hnew : newTX.hash = tx.hash) :
    ∃ disk', rewriteDisk disk b hash newTX = some disk' ∧ Rewrites disk disk' b i newTX := by
  obtain ⟨hlt, -⟩ := List.getElem?_eq_some_iff.mp hB
  obtain ⟨hi, -⟩ := List.getElem?_eq_some_iff.mp htx
  refine ⟨disk.set b { B with vtx := B.vtx.set i newTX }, ?_, ?_⟩
  · simp [rewriteDisk, CBlock.replaceTransaction, hB, hplace.2]
  · refine ⟨length_set, ⟨{ B with vtx := B.vtx.set i newTX }, by simp [hlt], by simp [hi]⟩, ?_, ?_⟩
    · intro c C C' hC hC'
      by_cases hc : b = c
      · subst hc
        obtain rfl := some.inj (hB.symm.trans hC)
        rw [getElem?_set_self hlt] at hC'
        obtain rfl := some.inj hC'
        exact map_set_eq _ htx hnew
      · rw [getElem?_set_ne hc, hC] at hC'
        obtain rfl := some.inj hC'
        rfl
    · intro c j C C' hC hC' hne
      by_cases hc : b = c
      · subst hc
        obtain rfl := some.inj (hB.symm.trans hC)
        rw [getElem?_set_self hlt] at hC'
        obtain rfl := some.inj hC'
        exact getElem?_set_ne (fun h => hne ⟨rfl, h.symm⟩)
      · rw [getElem?_set_ne hc, hC] at hC'
        obtain rfl := some.inj hC'
        rfl

lemma Rewrites.exists_old {i c : ℕ} {B' : CBlock sha256} (h : Rewrites disk disk' b i newTX)
    (hB' : disk'[c]? = some B') : ∃ B, disk[c]? = some B := by
  have hlt := (List.getElem?_eq_some_iff.mp hB').1
  rw [h.length] at hlt
  exact ⟨disk[c], getElem?_eq_getElem hlt⟩

lemma Rewrites.exists_new {i c : ℕ} {B : CBlock sha256} (h : Rewrites disk disk' b i newTX)
    (hB : disk[c]? = some B) : ∃ B', disk'[c]? = some B' := by
  have hlt := (List.getElem?_eq_some_iff.mp hB).1
  rw [← h.length] at hlt
  exact ⟨disk'[c], getElem?_eq_getElem hlt⟩

lemma isPlace_unique {B B' : CBlock sha256} {c i j : ℕ} (h : IsPlace index B b i hash)
    (h' : IsPlace index B' c j hash) (hB : disk[b]? = some B) (hB' : disk[c]? = some B') :
    c = b ∧ j = i := by
  obtain rfl := some.inj (h.1.symm.trans h'.1)
  obtain rfl := some.inj (hB.symm.trans hB')
  exact ⟨rfl, some.inj (h'.2.symm.trans h.2)⟩

lemma Rewrites.getTransaction_eq {B : CBlock sha256} {i : ℕ} (h : Rewrites disk disk' b i newTX)
    (hB : disk[b]? = some B) (hplace : IsPlace index B b i hash) (x : Uint256) :
    getTransaction index disk' x =
      if x = hash then some (newTX, b) else getTransaction index disk x := by
  split_ifs with hx
  · subst hx
    obtain ⟨B', hB', hnew⟩ := h.stored
    exact getTransaction_eq_some_iff.mpr
      ⟨B', i, hB', (isPlace_congr (h.ids hB hB')).mpr hplace, hnew⟩
  · have hne : ∀ {c j : ℕ} {C : CBlock sha256}, disk[c]? = some C → IsPlace index C c j x →
        ¬(c = b ∧ j = i) := by
      rintro c j C hC hC' ⟨rfl, rfl⟩
      obtain rfl := some.inj (hB.symm.trans hC)
      obtain ⟨hlt, hcx, -⟩ := findIdx?_eq_some_iff_getElem.mp hC'.2
      obtain ⟨hlt', hch, -⟩ := findIdx?_eq_some_iff_getElem.mp hplace.2
      simp only [decide_eq_true_eq] at hcx hch
      exact hx (hcx.symm.trans hch)
    ext ⟨t, c⟩
    rw [getTransaction_eq_some_iff, getTransaction_eq_some_iff]
    constructor
    · rintro ⟨C', j, hC', hp, ht⟩
      obtain ⟨C, hC⟩ := h.exists_old hC'
      have hp' := (isPlace_congr (h.ids hC hC')).mp hp
      exact ⟨C, j, hC, hp', (h.others hC hC' (hne hC hp')).symm.trans ht⟩
    · rintro ⟨C, j, hC, hp, ht⟩
      obtain ⟨C', hC'⟩ := h.exists_new hC
      exact ⟨C', j, hC', (isPlace_congr (h.ids hC hC')).mpr hp,
        (h.others hC hC' (hne hC hp)).trans ht⟩

lemma StoredVersion.rewrites (h : StoredVersion index A disk₀ disk) {op : RedactOp} {i : ℕ}
    {B₀ : CBlock sha256} {tx₀ : CTransaction sha256} (hB₀ : disk₀[b]? = some B₀)
    (hplace : IsPlace index B₀ b i hash) (htx₀ : B₀.vtx[i]? = some tx₀)
    (hred : redactTransaction op tx₀ = some newTX) (hw : Rewrites disk disk' b i newTX) :
    StoredVersion index (fun x => A x ∨ x = hash) disk₀ disk' where
  length := hw.length.trans h.length
  ids hC₀ hC' := by
    obtain ⟨C, hC⟩ := hw.exists_old hC'
    exact (hw.ids hC hC').trans (h.ids hC₀ hC)
  redacted := by
    intro c j C₀ C' t₀ t hC₀ hC' ht₀ ht hA hp
    obtain ⟨C, hC⟩ := hw.exists_old hC'
    by_cases hcj : c = b ∧ j = i
    · obtain ⟨rfl, rfl⟩ := hcj
      obtain rfl := some.inj (hB₀.symm.trans hC₀)
      obtain rfl := some.inj (htx₀.symm.trans ht₀)
      obtain ⟨B', hB', hnew⟩ := hw.stored
      obtain rfl := some.inj (hB'.symm.trans hC')
      obtain rfl := some.inj (hnew.symm.trans ht)
      exact ⟨op, hred⟩
    · rw [hw.others hC hC' hcj] at ht
      refine h.redacted hC₀ hC ht₀ ht (hA.resolve_right ?_) hp
      intro hhash
      rw [hhash] at hp
      exact hcj (isPlace_unique hplace hp hB₀ hC₀)
  received := by
    intro c j C₀ C' t₀ t hC₀ hC' ht₀ ht hnot
    obtain ⟨C, hC⟩ := hw.exists_old hC'
    have hcj : ¬(c = b ∧ j = i) := by
      rintro ⟨rfl, rfl⟩
      obtain rfl := some.inj (hB₀.symm.trans hC₀)
      have hhash := hash_of_isPlace hplace ht₀
      exact hnot ⟨Or.inr hhash, hhash ▸ hplace⟩
    rw [hw.others hC hC' hcj] at ht
    exact h.received hC₀ hC ht₀ ht (fun hA => hnot ⟨Or.inl hA.1, hA.2⟩)

end Rewrite

end Stored

end MutableBitcoin
