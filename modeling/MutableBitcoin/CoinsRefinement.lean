import MutableBitcoin.ConnectSafety

/-!
# The map that a stack of caches shows

Every entry of a cache is coherent with what the caches below it show, and each operation keeps
this.
-/

namespace MutableBitcoin
open Lib List Function CoinsLayer Bool Option Nat

def CCoinsCacheEntry.mark (entry : CCoinsCacheEntry) : Mark Coin :=
  ⟨entry.coin.unspent, entry.dirty, entry.fresh⟩

def CoinsLayer.slot (layer : CoinsLayer) (o : COutPoint) : Option (Mark Coin) :=
  (layer.cacheCoins.lookup o).map CCoinsCacheEntry.mark

def CoinsLayer.sumUsage (layer : CoinsLayer) : ℕ :=
  (layer.cacheCoins.entries.map (fun kv => kv.2.coin.dynamicMemoryUsage)).sum

def visible (base : COutPoint → Option Coin) : List CoinsLayer → COutPoint → Option Coin
  | [], o => (base o).bind Coin.unspent
  | layer :: layers, o => shown (layer.slot o) (visible base layers o)

/-- Every slot is coherent with the value below it. -/
structure CoinsLayer.Valid (layer : CoinsLayer) (below : COutPoint → Option Coin) : Prop where
  fits : ∀ o, Fits (layer.slot o) (below o)
  usage : layer.cachedCoinsUsage = layer.sumUsage

def ValidLayers (base : COutPoint → Option Coin) : List CoinsLayer → Prop
  | [] => True
  | layer :: layers => layer.Valid (visible base layers) ∧ ValidLayers base layers

section Coin

variable {coin : Coin}

lemma unspent_of_isSpent (h : coin.isSpent = true) : coin.unspent = none := if_pos h

lemma unspent_of_not_isSpent (h : coin.isSpent = false) : coin.unspent = some coin :=
  if_neg (by rw [h]; decide)

lemma unspent_eq_none_iff : coin.unspent = none ↔ coin.isSpent = true := by
  cases h : coin.isSpent with
  | true => simp [unspent_of_isSpent h]
  | false => simp [unspent_of_not_isSpent h]

lemma unspent_empty : Coin.empty.unspent = none := unspent_of_isSpent rfl

lemma isNone_unspent (coin : Coin) : coin.unspent.isNone = coin.isSpent := by
  cases h : coin.isSpent with
  | true => rw [unspent_of_isSpent h]; rfl
  | false => rw [unspent_of_not_isSpent h]; rfl

lemma isSome_unspent (coin : Coin) : coin.unspent.isSome = !coin.isSpent := by
  cases h : coin.isSpent with
  | true => rw [unspent_of_isSpent h]; rfl
  | false => rw [unspent_of_not_isSpent h]; rfl

lemma unspent_bind_unspent (coin : Coin) : coin.unspent.bind Coin.unspent = coin.unspent := by
  cases h : coin.isSpent with
  | true => rw [unspent_of_isSpent h]; rfl
  | false => rw [unspent_of_not_isSpent h]; exact unspent_of_not_isSpent h

end Coin

namespace CoinsLayer

variable {layer : CoinsLayer} {o : COutPoint} {entry : CCoinsCacheEntry} {usage : ℕ}

section Slots

lemma slot_of_lookup (h : layer.cacheCoins.lookup o = some entry) : layer.slot o = some entry.mark := by
  rw [slot, h]
  rfl

lemma slot_of_lookup_none (h : layer.cacheCoins.lookup o = none) : layer.slot o = none := by
  rw [slot, h]
  rfl

lemma slot_set (layer : CoinsLayer) (o : COutPoint) (entry : CCoinsCacheEntry) (usage : ℕ) :
    (layer.set o entry usage).slot = Function.update layer.slot o (some entry.mark) := by
  funext o'
  by_cases h : o' = o
  · subst h
    rw [update_self]
    exact slot_of_lookup (AList.lookup_insert _)
  · rw [update_of_ne h]
    exact congrArg (Option.map _) (AList.lookup_insert_ne h)

lemma slot_erase (layer : CoinsLayer) (o : COutPoint) (usage : ℕ) :
    (layer.erase o usage).slot = Function.update layer.slot o none := by
  funext o'
  by_cases h : o' = o
  · subst h
    rw [update_self]
    exact slot_of_lookup_none (AList.lookup_erase _ _)
  · rw [update_of_ne h]
    exact congrArg (Option.map _) (AList.lookup_erase_ne h)

end Slots

section Usage

lemma sum_kerase {l : List (Sigma fun _ : COutPoint => CCoinsCacheEntry)}
    (h : l.dlookup o = some entry) :
    (l.map (fun kv => kv.2.coin.dynamicMemoryUsage)).sum =
      entry.coin.dynamicMemoryUsage + ((l.kerase o).map (fun kv => kv.2.coin.dynamicMemoryUsage)).sum := by
  induction l with
  | nil => cases h
  | cons kv l ih =>
    obtain ⟨o', e⟩ := kv
    by_cases ho : o = o'
    · subst ho
      rw [dlookup_cons_eq] at h
      obtain rfl := Option.some.inj h
      have hrest : List.kerase o (⟨o, e⟩ :: l) = l := kerase_cons_eq rfl
      rw [hrest, map_cons, sum_cons]
    · rw [dlookup_cons_ne _ _ ho] at h
      rw [kerase_cons_ne ho, map_cons, map_cons, sum_cons, sum_cons, ih h,
        add_left_comm]

lemma sumUsage_erase (h : layer.cacheCoins.lookup o = some entry) (usage : ℕ) :
    layer.sumUsage = entry.coin.dynamicMemoryUsage + (layer.erase o usage).sumUsage :=
  sum_kerase h

lemma usage_erase (hsum : layer.cachedCoinsUsage = layer.sumUsage)
    (h : layer.cacheCoins.lookup o = some entry) :
    (layer.erase o (layer.cachedCoinsUsage - entry.coin.dynamicMemoryUsage)).cachedCoinsUsage =
      (layer.erase o (layer.cachedCoinsUsage - entry.coin.dynamicMemoryUsage)).sumUsage := by
  show layer.cachedCoinsUsage - entry.coin.dynamicMemoryUsage = _
  rw [hsum, sumUsage_erase h 0, Nat.add_sub_cancel_left]
  rfl

lemma usage_set_new (entry : CCoinsCacheEntry) (hsum : layer.cachedCoinsUsage = layer.sumUsage)
    (h : layer.cacheCoins.lookup o = none) :
    (layer.set o entry (layer.cachedCoinsUsage + entry.coin.dynamicMemoryUsage)).cachedCoinsUsage =
      (layer.set o entry (layer.cachedCoinsUsage + entry.coin.dynamicMemoryUsage)).sumUsage := by
  have hnot : o ∉ layer.cacheCoins := AList.lookup_eq_none.mp h
  show layer.cachedCoinsUsage + entry.coin.dynamicMemoryUsage =
    ((layer.cacheCoins.insert o entry).entries.map _).sum
  rw [AList.entries_insert_of_notMem hnot, map_cons, sum_cons, hsum, add_comm]
  rfl

lemma usage_set_old (entry : CCoinsCacheEntry) (hsum : layer.cachedCoinsUsage = layer.sumUsage) {old : CCoinsCacheEntry}
    (h : layer.cacheCoins.lookup o = some old) {total : ℕ}
    (htotal : total = layer.cachedCoinsUsage - old.coin.dynamicMemoryUsage + entry.coin.dynamicMemoryUsage) :
    (layer.set o entry total).cachedCoinsUsage = (layer.set o entry total).sumUsage := by
  show total = ((layer.cacheCoins.insert o entry).entries.map _).sum
  have hkerase := sum_kerase h
  rw [AList.entries_insert, map_cons, sum_cons, htotal, hsum, sumUsage, hkerase,
    Nat.add_sub_cancel_left, Nat.add_comm]

end Usage

section Update

variable {below : COutPoint → Option Coin}

lemma fits_update (h : ∀ o, Fits (layer.slot o) (below o)) {m : Option (Mark Coin)} (hm : Fits m (below o)) :
    ∀ o', Fits (Function.update layer.slot o m o') (below o') := by
  intro o'
  by_cases ho : o' = o
  · subst ho
    rwa [update_self]
  · rw [update_of_ne ho]
    exact h o'

lemma Valid.set (h : layer.Valid below) (hm : entry.mark.Coherent (below o))
    (husage : usage = (layer.set o entry usage).sumUsage) : (layer.set o entry usage).Valid below where
  fits := by
    rw [slot_set]
    exact fits_update h.fits (fits_some.mpr hm)
  usage := husage

lemma Valid.erase (h : layer.Valid below) (hlookup : layer.cacheCoins.lookup o = some entry) :
    (layer.erase o (layer.cachedCoinsUsage - entry.coin.dynamicMemoryUsage)).Valid below where
  fits := by
    rw [slot_erase]
    exact fits_update h.fits fits_none
  usage := usage_erase h.usage hlookup

lemma valid_empty (below : COutPoint → Option Coin) : empty.Valid below where
  fits := fun _ => fits_none
  usage := rfl

lemma shown_slot_set (o' : COutPoint) : shown ((layer.set o entry usage).slot o') (below o') =
    Function.update (fun o => shown (layer.slot o) (below o)) o entry.coin.unspent o' := by
  rw [slot_set]
  by_cases ho : o' = o
  · subst ho
    rw [update_self, update_self]
    rfl
  · rw [update_of_ne ho, update_of_ne ho]

lemma shown_slot_erase (o' : COutPoint) : shown ((layer.erase o usage).slot o') (below o') =
    Function.update (fun o => shown (layer.slot o) (below o)) o (below o) o' := by
  rw [slot_erase]
  by_cases ho : o' = o
  · subst ho
    rw [update_self, update_self]
    rfl
  · rw [update_of_ne ho, update_of_ne ho]

end Update

end CoinsLayer

section Fetch

variable {base : COutPoint → Option Coin} {layer : CoinsLayer} {layers layers' : List CoinsLayer}
  {o : COutPoint} {entry : Option CCoinsCacheEntry}

/-- Looking up coins changes nothing that is shown. -/
structure Fetched (base : COutPoint → Option Coin) (layers layers' : List CoinsLayer) : Prop where
  valid : ValidLayers base layers'
  shows : visible base layers' = visible base layers
  length : layers'.length = layers.length

/-- The entry that `FetchCoin` returns is in the top cache. -/
structure Found (base : COutPoint → Option Coin) (layers layers' : List CoinsLayer) (o : COutPoint)
    (entry : Option CCoinsCacheEntry) : Prop extends Fetched base layers layers' where
  answer : entry.bind (fun entry => entry.coin.unspent) = visible base layers o
  held : ∀ e, entry = some e → ∃ top rest, layers' = top :: rest ∧ top.cacheCoins.lookup o = some e

lemma found_of_lookup {e : CCoinsCacheEntry} (h : ValidLayers base (layer :: layers))
    (hlookup : layer.cacheCoins.lookup o = some e) :
    Found base (layer :: layers) (layer :: layers) o (some e) where
  valid := h
  shows := rfl
  length := rfl
  answer := by
    show _ = shown (layer.slot o) _
    rw [slot_of_lookup hlookup]
    rfl
  held := by
    rintro _ ⟨⟩
    exact ⟨layer, layers, rfl, hlookup⟩

lemma Fetched.cons (h : Fetched base layers layers') (hlayer : layer.Valid (visible base layers)) :
    Fetched base (layer :: layers) (layer :: layers') where
  valid := ⟨by rwa [h.shows], h.valid⟩
  shows := by
    funext o
    show shown _ _ = shown _ _
    rw [h.shows]
  length := by rw [length_cons, length_cons, h.length]

lemma found_fetch {tmp : Option Coin} (hlayer : layer.Valid (visible base layers))
    (hlayers : ValidLayers base layers) (h : Fetched base layers layers')
    (htmp : tmp.bind Coin.unspent = visible base layers o) {result : List CoinsLayer}
    (hrun : layer.fetch o layers (layers', tmp) = (result, entry)) :
    Found base (layer :: layers) result o entry := by
  unfold fetch at hrun
  cases hlookup : layer.cacheCoins.lookup o with
  | some e =>
    rw [hlookup] at hrun
    obtain ⟨rfl, rfl⟩ := Prod.mk.inj hrun
    exact found_of_lookup ⟨hlayer, hlayers⟩ hlookup
  | none =>
    rw [hlookup] at hrun
    have hshown : visible base (layer :: layers) o = visible base layers o := by
      show shown (layer.slot o) _ = _
      rw [slot_of_lookup_none hlookup]
      rfl
    cases tmp with
    | none =>
      obtain ⟨rfl, rfl⟩ := Prod.mk.inj hrun
      refine ⟨h.cons hlayer, ?_, by rintro _ ⟨⟩⟩
      rw [hshown, ← htmp]
      rfl
    | some tmp =>
      obtain ⟨rfl, rfl⟩ := Prod.mk.inj hrun
      have hbelow : tmp.unspent = visible base layers o := htmp
      have hmark : (⟨tmp.unspent, false, tmp.isSpent⟩ : Mark Coin).Coherent (visible base layers o) := by
        rw [← hbelow]
        exact coherent_read unspent_of_isSpent
      let fetched : CoinsLayer :=
        layer.set o ⟨tmp, false, tmp.isSpent⟩ (layer.cachedCoinsUsage + tmp.dynamicMemoryUsage)
      have hfetched : fetched.Valid (visible base layers) :=
        hlayer.set hmark (usage_set_new ⟨tmp, false, tmp.isSpent⟩ hlayer.usage hlookup)
      have hshows : visible base (fetched :: layers') = visible base (layer :: layers) := by
        funext o'
        show shown (fetched.slot o') (visible base layers' o') = shown (layer.slot o') (visible base layers o')
        rw [h.shows, shown_slot_set]
        by_cases ho : o' = o
        · subst ho
          rw [update_self, slot_of_lookup_none hlookup]
          exact hbelow
        · rw [update_of_ne ho]
      refine ⟨⟨⟨by rwa [h.shows], h.valid⟩, hshows, by simp [h.length]⟩, ?_, ?_⟩
      · rw [hshown, ← hbelow]
        rfl
      · rintro _ ⟨⟩
        exact ⟨fetched, layers', rfl, AList.lookup_insert _⟩

lemma getCoin_spec (h : ValidLayers base layers) (o : COutPoint) :
    Fetched base layers (getCoin base layers o).1 ∧
      (getCoin base layers o).2.bind Coin.unspent = visible base layers o := by
  induction layers with
  | nil => exact ⟨⟨trivial, rfl, rfl⟩, rfl⟩
  | cons layer layers ih =>
    obtain ⟨hfetched, hanswer⟩ := ih h.2
    cases hrun : layer.fetch o layers (getCoin base layers o) with
    | mk result entry =>
      have hfound : Found base (layer :: layers) result o entry := found_fetch h.1 h.2 hfetched hanswer hrun
      have heq : getCoin base (layer :: layers) o =
          (result, entry.bind (fun entry => entry.coin.unspent)) := by
        rw [getCoin, hrun]
      rw [heq]
      refine ⟨hfound.toFetched, ?_⟩
      rw [← hfound.answer]
      cases entry with
      | none => rfl
      | some e => exact unspent_bind_unspent e.coin

lemma fetchCoin_spec (h : ValidLayers base (layer :: layers)) (o : COutPoint) :
    Found base (layer :: layers) (fetchCoin base (layer :: layers) o).1 o
      (fetchCoin base (layer :: layers) o).2 := by
  obtain ⟨hfetched, hanswer⟩ := getCoin_spec h.2 o
  exact found_fetch h.1 h.2 hfetched hanswer rfl

end Fetch

section BatchWrite

variable {below : COutPoint → Option Coin} {layer : CoinsLayer} {o : COutPoint} {child : CCoinsCacheEntry}

lemma batchWriteEntry_spec (h : layer.Valid below) {slot : Option (Mark Coin)}
    (hwrite : writeBack child.mark (layer.slot o) = some slot) (hslot : Fits slot (below o)) :
    ∃ layer', layer.batchWriteEntry ⟨o, child⟩ = .ok layer' ∧ layer'.Valid below ∧
      layer'.slot = Function.update layer.slot o slot := by
  have hisNone : child.mark.value.isNone = child.coin.isSpent := isNone_unspent child.coin
  unfold batchWriteEntry
  dsimp only
  cases hdirty : child.dirty with
  | false =>
    rw [writeBack_clean hdirty] at hwrite
    obtain rfl := Option.some.inj hwrite
    exact ⟨layer, rfl, h, (update_eq_self o layer.slot).symm⟩
  | true =>
    cases hlookup : layer.cacheCoins.lookup o with
    | none =>
      have hnone := slot_of_lookup_none hlookup
      rw [hnone] at hwrite
      dsimp only
      cases hskip : child.fresh && child.coin.isSpent with
      | true =>
        rw [← hisNone] at hskip
        rw [writeBack_skip hdirty hskip] at hwrite
        obtain rfl := Option.some.inj hwrite
        refine ⟨layer, rfl, h, ?_⟩
        rw [← hnone, update_eq_self]
      | false =>
        rw [← hisNone] at hskip
        rw [writeBack_new hdirty hskip] at hwrite
        obtain rfl := Option.some.inj hwrite
        exact ⟨_, rfl, h.set (fits_some.mp hslot)
          (usage_set_new ⟨child.coin, true, child.fresh⟩ h.usage hlookup),
          slot_set _ _ _ _⟩
    | some us =>
      have hisSome : us.mark.value.isSome = !us.coin.isSpent := isSome_unspent us.coin
      rw [slot_of_lookup hlookup] at hwrite
      dsimp only
      cases hmisapplied : child.fresh && !us.coin.isSpent with
      | true =>
        rw [← hisSome] at hmisapplied
        rw [writeBack_misapplied hdirty hmisapplied] at hwrite
        cases hwrite
      | false =>
        rw [← hisSome] at hmisapplied
        cases herase : us.fresh && child.coin.isSpent with
        | true =>
          rw [← hisNone] at herase
          rw [writeBack_erase hdirty hmisapplied herase] at hwrite
          obtain rfl := Option.some.inj hwrite
          exact ⟨_, rfl, h.erase hlookup, slot_erase _ _ _⟩
        | false =>
          rw [← hisNone] at herase
          rw [writeBack_modify hdirty hmisapplied herase] at hwrite
          obtain rfl := Option.some.inj hwrite
          exact ⟨_, rfl, h.set (fits_some.mp hslot)
            (usage_set_old ⟨child.coin, true, us.fresh⟩ h.usage hlookup rfl),
            slot_set _ _ _ _⟩

lemma batchWrite_spec {mapCoins : List (Sigma fun _ : COutPoint => CCoinsCacheEntry)}
    (hnodup : mapCoins.NodupKeys) (h : layer.Valid below)
    (hmap : ∀ o child, mapCoins.dlookup o = some child →
      child.mark.Coherent (shown (layer.slot o) (below o))) :
    ∃ layer', layer.batchWrite mapCoins = .ok layer' ∧ layer'.Valid below ∧
      ∀ o, shown (layer'.slot o) (below o) =
        shown ((mapCoins.dlookup o).map CCoinsCacheEntry.mark) (shown (layer.slot o) (below o)) := by
  induction mapCoins generalizing layer with
  | nil => exact ⟨layer, rfl, h, fun _ => rfl⟩
  | cons kv mapCoins ih =>
    obtain ⟨o, child⟩ := kv
    rw [nodupKeys_cons] at hnodup
    have hnot : mapCoins.dlookup o = none := dlookup_eq_none.mpr hnodup.1
    obtain ⟨slot, hwrite, hfits, hshown⟩ :=
      writeBack_of_coherent (h.fits o) (hmap o child (dlookup_cons_eq _ _ _))
    obtain ⟨layer₁, hentry, hvalid, hslot⟩ := batchWriteEntry_spec h hwrite hfits
    have hother : ∀ o', o' ≠ o → layer₁.slot o' = layer.slot o' := by
      intro o' ho
      rw [hslot, update_of_ne ho]
    have hrest : ∀ o' child', mapCoins.dlookup o' = some child' →
        child'.mark.Coherent (shown (layer₁.slot o') (below o')) := by
      intro o' child' hlookup
      have ho : o' ≠ o := by
        rintro rfl
        rw [hnot] at hlookup
        cases hlookup
      rw [hother o' ho]
      exact hmap o' child' (by rw [dlookup_cons_ne _ _ ho, hlookup])
    obtain ⟨layer', hrun, hvalid', hshows⟩ := ih hnodup.2 hvalid hrest
    refine ⟨layer', ?_, hvalid', ?_⟩
    · unfold batchWrite
      rw [foldlM_cons, hentry, ok_bind]
      exact hrun
    · intro o'
      rw [hshows]
      by_cases ho : o' = o
      · subst ho
        rw [hnot, dlookup_cons_eq, hslot, update_self]
        exact hshown
      · rw [hother o' ho, dlookup_cons_ne _ _ ho]

lemma writeBase_cons (keep : COutPoint → Bool) (base : COutPoint → Option Coin) (o : COutPoint)
    (child : CCoinsCacheEntry) (mapCoins : List (Sigma fun _ : COutPoint => CCoinsCacheEntry)) :
    ∃ base₁, writeBase keep base (⟨o, child⟩ :: mapCoins) = writeBase keep base₁ mapCoins ∧
      (∀ o', o' ≠ o → base₁ o' = base o') ∧
      (child.mark.Coherent ((base o).bind Coin.unspent) → (base₁ o).bind Coin.unspent = child.coin.unspent) := by
  refine ⟨_, rfl, ?_, ?_⟩
  · intro o' ho
    dsimp only
    split_ifs
    · rfl
    · rw [update_of_ne ho]
    · rw [update_of_ne ho]
  · intro hcoherent
    dsimp only
    cases hdirty : child.dirty with
    | false => exact (hcoherent.clean hdirty).symm
    | true =>
      rw [if_neg (by decide), update_self]
      cases hspent : child.coin.isSpent with
      | true =>
        rw [unspent_of_isSpent hspent]
        cases keep o with
        | true => exact unspent_of_isSpent hspent
        | false => rfl
      | false => rfl

lemma writeBase_spec {keep : COutPoint → Bool} {base : COutPoint → Option Coin}
    {mapCoins : List (Sigma fun _ : COutPoint => CCoinsCacheEntry)} (hnodup : mapCoins.NodupKeys)
    (hmap : ∀ o child, mapCoins.dlookup o = some child →
      child.mark.Coherent ((base o).bind Coin.unspent)) (o : COutPoint) :
    (writeBase keep base mapCoins o).bind Coin.unspent =
      shown ((mapCoins.dlookup o).map CCoinsCacheEntry.mark) ((base o).bind Coin.unspent) := by
  induction mapCoins generalizing base with
  | nil => rfl
  | cons kv mapCoins ih =>
    obtain ⟨o₁, child⟩ := kv
    rw [nodupKeys_cons] at hnodup
    have hnot : mapCoins.dlookup o₁ = none := dlookup_eq_none.mpr hnodup.1
    obtain ⟨base₁, hwrite, hother, hself⟩ := writeBase_cons keep base o₁ child mapCoins
    have hrest : ∀ o' child', mapCoins.dlookup o' = some child' →
        child'.mark.Coherent ((base₁ o').bind Coin.unspent) := by
      intro o' child' hlookup
      have ho : o' ≠ o₁ := by
        rintro rfl
        rw [hnot] at hlookup
        cases hlookup
      rw [hother o' ho]
      exact hmap o' child' (by rw [dlookup_cons_ne _ _ ho, hlookup])
    rw [hwrite, ih hnodup.2 hrest]
    by_cases ho : o = o₁
    · subst ho
      rw [hnot, dlookup_cons_eq]
      exact hself (hmap o child (dlookup_cons_eq _ _ _))
    · rw [hother o ho, dlookup_cons_ne _ _ ho]

end BatchWrite

section Flush

variable {base : COutPoint → Option Coin} {layer : CoinsLayer} {layers : List CoinsLayer}
  {keep : COutPoint → Bool} {mapCoins : List (Sigma fun _ : COutPoint => CCoinsCacheEntry)}

lemma walk_spec (hperm : mapCoins.Perm layer.cacheCoins.entries) :
    mapCoins.NodupKeys ∧ ∀ o, mapCoins.dlookup o = layer.cacheCoins.lookup o := by
  have hnodup : mapCoins.NodupKeys := (perm_nodupKeys hperm).mpr layer.cacheCoins.nodupKeys
  exact ⟨hnodup, fun o => perm_dlookup o hnodup hperm⟩

lemma coherent_of_walk (hperm : mapCoins.Perm layer.cacheCoins.entries) {below : COutPoint → Option Coin}
    (h : layer.Valid below) (o : COutPoint) (child : CCoinsCacheEntry)
    (hlookup : mapCoins.dlookup o = some child) : child.mark.Coherent (below o) := by
  rw [(walk_spec hperm).2] at hlookup
  exact h.fits o _ (slot_of_lookup hlookup)

lemma flushLayers_spec {i : ℕ} (h : ValidLayers base layers) (hi : layers[i]? = some layer)
    (hperm : mapCoins.Perm layer.cacheCoins.entries) :
    ∃ st, CoinsStack.flushLayers keep mapCoins base layers i = .ok st ∧ ValidLayers st.base st.layers ∧
      st.layers.length = layers.length ∧
      ∀ j ≤ i, visible st.base (st.layers.drop j) = visible base (layers.drop j) := by
  induction layers generalizing i with
  | nil => cases hi
  | cons top layers ih =>
    cases i with
    | succ i =>
      obtain ⟨st, hrun, hvalid, hlength, hshows⟩ := ih h.2 hi
      have hbelow : visible st.base st.layers = visible base layers := hshows 0 (zero_le i)
      refine ⟨⟨st.base, top :: st.layers⟩, ?_, ⟨by rw [hbelow]; exact h.1, hvalid⟩, by simp [hlength], ?_⟩
      · rw [CoinsStack.flushLayers, hrun, ok_bind]
        rfl
      · intro j hj
        cases j with
        | zero =>
          funext o
          show shown (top.slot o) _ = shown (top.slot o) _
          rw [hbelow]
        | succ j => exact hshows j (by omega)
    | zero =>
      obtain rfl : top = layer := Option.some.inj hi
      obtain ⟨hnodup, hlookup⟩ := walk_spec hperm
      have hcoherent := coherent_of_walk hperm h.1
      have hslot : ∀ o, (mapCoins.dlookup o).map CCoinsCacheEntry.mark = top.slot o := by
        intro o
        rw [hlookup]
        rfl
      cases layers with
      | nil =>
        have hbase : visible (writeBase keep base mapCoins) [empty] = visible base [top] := by
          funext o
          show (writeBase keep base mapCoins o).bind Coin.unspent =
            shown (top.slot o) ((base o).bind Coin.unspent)
          rw [writeBase_spec hnodup hcoherent, hslot]
        refine ⟨_, rfl, ⟨valid_empty _, trivial⟩, rfl, ?_⟩
        intro j hj
        obtain rfl := le_zero.mp hj
        exact hbase
      | cons parent layers =>
        obtain ⟨parent', hrun, hvalid, hshows⟩ := batchWrite_spec hnodup h.2.1 hcoherent
        have hstack : visible base (empty :: parent' :: layers) =
            visible base (top :: parent :: layers) := by
          funext o
          show shown (parent'.slot o) (visible base layers o) =
            shown (top.slot o) (shown (parent.slot o) (visible base layers o))
          rw [hshows, hslot]
        refine ⟨⟨base, empty :: parent' :: layers⟩, ?_,
          ⟨valid_empty _, hvalid, h.2.2⟩, rfl, ?_⟩
        · rw [CoinsStack.flushLayers, hrun, ok_bind]
          rfl
        · intro j hj
          obtain rfl := le_zero.mp hj
          exact hstack

end Flush

section Uncache

variable {base : COutPoint → Option Coin} {layer : CoinsLayer} {layers : List CoinsLayer} {o : COutPoint}

lemma uncache_spec {below : COutPoint → Option Coin} (h : layer.Valid below) :
    (layer.uncache o).Valid below ∧
      ∀ o', shown ((layer.uncache o).slot o') (below o') = shown (layer.slot o') (below o') := by
  unfold uncache
  cases hlookup : layer.cacheCoins.lookup o with
  | none => exact ⟨h, fun _ => rfl⟩
  | some entry =>
    dsimp only
    split_ifs with hflags
    · refine ⟨h.erase hlookup, ?_⟩
      intro o'
      rw [shown_slot_erase]
      by_cases ho : o' = o
      · subst ho
        rw [and_eq_true, not_eq_true', not_eq_true'] at hflags
        have hslot := slot_of_lookup hlookup
        rw [update_self, hslot]
        exact ((h.fits o' _ hslot).clean hflags.1).symm
      · rw [update_of_ne ho]
    · exact ⟨h, fun _ => rfl⟩

lemma uncacheLayers_spec (h : ValidLayers base layers) (i : ℕ) :
    ValidLayers base (layers.modify i (fun layer => layer.uncache o)) ∧
      visible base (layers.modify i (fun layer => layer.uncache o)) = visible base layers := by
  induction layers generalizing i with
  | nil =>
    rw [modify_nil]
    exact ⟨trivial, rfl⟩
  | cons layer layers ih =>
    cases i with
    | zero =>
      obtain ⟨hvalid, hshows⟩ := uncache_spec (o := o) h.1
      exact ⟨⟨hvalid, h.2⟩, funext hshows⟩
    | succ i =>
      obtain ⟨hvalid, hshows⟩ := ih h.2 i
      rw [modify_succ_cons]
      refine ⟨⟨by rw [hshows]; exact h.1, hvalid⟩, ?_⟩
      funext o'
      show shown _ _ = shown _ _
      rw [hshows]

end Uncache

section TopCache

variable {layer : CoinsLayer} {o : COutPoint}
  {coin : Coin}

lemma addCoin_spec {below : COutPoint → Option Coin} (h : layer.Valid below) (hspent : coin.isSpent = false)
    (hu : CScript.isUnspendable coin.out.scriptPubKey = false) {possible_overwrite : Bool}
    (hfree : possible_overwrite = false → shown (layer.slot o) (below o) = none) :
    ∃ layer', layer.addCoin o coin possible_overwrite = .ok layer' ∧ layer'.Valid below ∧
      ∀ o', shown (layer'.slot o') (below o') =
        Function.update (fun o => shown (layer.slot o) (below o)) o (some coin) o' := by
  have hnot : ¬ coin.isSpent = true := by rw [hspent]; decide
  have hspendable : ¬ CScript.isUnspendable coin.out.scriptPubKey = true := by rw [hu]; decide
  have hshows : ∀ (fresh : Bool) (usage : ℕ) (o' : COutPoint),
      shown ((layer.set o ⟨coin, true, fresh⟩ usage).slot o') (below o') =
        Function.update (fun o => shown (layer.slot o) (below o)) o (some coin) o' := by
    intro fresh usage o'
    rw [shown_slot_set]
    exact congrArg (fun v => Function.update _ o v o') (unspent_of_not_isSpent hspent)
  unfold addCoin
  rw [if_neg hnot, if_neg hspendable]
  cases hlookup : layer.cacheCoins.lookup o with
  | none =>
    have hslot := slot_of_lookup_none hlookup
    have hcoherent : (⟨coin.unspent, true, !possible_overwrite⟩ : Mark Coin).Coherent (below o) := by
      refine coherent_write (h.fits o) (fun hfresh => Or.inr ⟨hfree (by simpa using hfresh), ?_⟩)
      rw [hslot]
      rintro _ ⟨⟩
    have hthrow : ¬ (!possible_overwrite && !Coin.empty.isSpent) = true := by
      cases possible_overwrite <;> decide
    dsimp only [getD_none, isSome_none]
    rw [if_neg hthrow, Bool.false_or, Bool.not_false, Bool.and_true]
    exact ⟨_, rfl, h.set hcoherent
      (usage_set_new ⟨coin, true, !possible_overwrite⟩ h.usage hlookup), hshows _ _⟩
  | some entry =>
    have hslot := slot_of_lookup hlookup
    have hspentEntry : possible_overwrite = false → entry.coin.isSpent = true := by
      intro hpo
      have hnone := hfree hpo
      rw [hslot] at hnone
      exact unspent_eq_none_iff.mp hnone
    have hcoherent : (⟨coin.unspent, true, entry.fresh || (!possible_overwrite && !entry.dirty)⟩ :
        Mark Coin).Coherent (below o) := by
      apply coherent_write (h.fits o)
      intro hfresh
      rw [or_eq_true, and_eq_true, not_eq_true', not_eq_true'] at hfresh
      rw [hslot]
      obtain hfresh | ⟨hpo, hclean⟩ := hfresh
      · exact Or.inl ⟨_, rfl, hfresh⟩
      · right
        refine ⟨unspent_of_isSpent (hspentEntry hpo), ?_⟩
        rintro _ ⟨⟩
        exact hclean
    have hthrow : ¬ (!possible_overwrite && !entry.coin.isSpent) = true := by
      rw [and_eq_true, not_eq_true', not_eq_true']
      rintro ⟨hpo, hunspent⟩
      rw [hspentEntry hpo] at hunspent
      cases hunspent
    dsimp only [getD_some, isSome_some]
    rw [if_neg hthrow]
    exact ⟨_, rfl, h.set hcoherent (usage_set_old
      ⟨coin, true, entry.fresh || (!possible_overwrite && !entry.dirty)⟩ h.usage hlookup rfl), hshows _ _⟩

lemma spend_spec {below : COutPoint → Option Coin} {entry : CCoinsCacheEntry} (h : layer.Valid below)
    (hlookup : layer.cacheCoins.lookup o = some entry) :
    (layer.spend o entry).Valid below ∧
      ∀ o', shown ((layer.spend o entry).slot o') (below o') =
        Function.update (fun o => shown (layer.slot o) (below o)) o none o' := by
  have hslot := slot_of_lookup hlookup
  unfold spend
  cases hfresh : entry.fresh with
  | true =>
    refine ⟨h.erase hlookup, ?_⟩
    intro o'
    rw [if_pos rfl, shown_slot_erase, (h.fits o _ hslot).fresh hfresh]
  | false =>
    have hcoherent : (⟨Coin.empty.unspent, true, false⟩ : Mark Coin).Coherent (below o) :=
      coherent_dirty (by rintro ⟨⟩)
    refine ⟨h.set hcoherent (usage_set_old ⟨Coin.empty, true, false⟩ h.usage hlookup rfl), ?_⟩
    intro o'
    rw [if_neg (by decide), shown_slot_set]
    rfl

end TopCache

section Calls

/-- The calls on a stack. The reads go to the top cache, `push` adds a cache and `pop` removes one. -/
inductive CoinsCall where
  | addCoin (o : COutPoint) (coin : Coin) (possible_overwrite : Bool)
  | spendCoin (o : COutPoint)
  | getCoin (o : COutPoint)
  | haveCoin (o : COutPoint)
  | accessCoin (o : COutPoint)
  | uncache (i : ℕ) (o : COutPoint)
  | flush (i : ℕ) (keep : COutPoint → Bool) (mapCoins : List (Sigma fun _ : COutPoint => CCoinsCacheEntry))
  | push
  | pop

def CoinsStack.call (st : CoinsStack) : CoinsCall → Except Failure CoinsStack
  | .addCoin o coin possible_overwrite => st.addCoin o coin possible_overwrite
  | .spendCoin o => .ok (st.spendCoin o).1
  | .getCoin o => .ok ⟨st.base, (getCoin st.base st.layers o).1⟩
  | .haveCoin o => .ok (st.haveCoin o).1
  | .accessCoin o => .ok (st.accessCoin o).1
  | .uncache i o => .ok (st.uncache i o)
  | .flush i keep mapCoins => st.flush i keep mapCoins
  | .push => .ok ⟨st.base, empty :: st.layers⟩
  | .pop => .ok ⟨st.base, st.layers.tail⟩

/-- An unspent coin is added, without overwriting only where none is shown; a cache is flushed in some
order of its entries and removed when nothing in it is dirty, as after a flush. -/
def CoinsCall.Legal (st : CoinsStack) : CoinsCall → Prop
  | .addCoin o coin possible_overwrite => st.layers ≠ [] ∧ coin.isSpent = false ∧
      (possible_overwrite = false → visible st.base st.layers o = none)
  | .spendCoin _ => st.layers ≠ []
  | .flush i _ mapCoins => ∃ layer, st.layers[i]? = some layer ∧ mapCoins.Perm layer.cacheCoins.entries
  | .pop => ∃ top layers, st.layers = top :: layers ∧
      ∀ o entry, top.cacheCoins.lookup o = some entry → entry.dirty = false
  | _ => True

def CoinsCall.apply (m : COutPoint → Option Coin) : CoinsCall → COutPoint → Option Coin
  | .addCoin o coin _ =>
    if CScript.isUnspendable coin.out.scriptPubKey then m else Function.update m o (some coin)
  | .spendCoin o => Function.update m o none
  | _ => m

variable {st st' : CoinsStack} {m : COutPoint → Option Coin}

lemma fetched_fetchCoin (h : ValidLayers st.base st.layers) (o : COutPoint) :
    Fetched st.base st.layers (fetchCoin st.base st.layers o).1 := by
  cases hlayers : st.layers with
  | nil => exact ⟨trivial, rfl, rfl⟩
  | cons layer layers =>
    rw [hlayers] at h
    exact (fetchCoin_spec h o).toFetched

lemma spendCoin_spec (h : ValidLayers st.base st.layers) (hne : st.layers ≠ []) (o : COutPoint) :
    (st.spendCoin o).1.base = st.base ∧ ValidLayers st.base (st.spendCoin o).1.layers ∧
      visible st.base (st.spendCoin o).1.layers = Function.update (visible st.base st.layers) o none := by
  obtain ⟨layer, layers, hlayers⟩ := exists_cons_of_ne_nil hne
  rw [hlayers] at h
  have hfound := fetchCoin_spec h o
  unfold CoinsStack.spendCoin
  rw [hlayers]
  cases hfetch : fetchCoin st.base (layer :: layers) o with
  | mk result entry =>
    rw [hfetch] at hfound
    cases entry with
    | none =>
      have hnone : visible st.base (layer :: layers) o = none := hfound.answer.symm
      have hsame : visible st.base result = Function.update (visible st.base (layer :: layers)) o none := by
        rw [hfound.shows, ← hnone, update_eq_self]
      cases result with
      | nil => exact ⟨rfl, hfound.valid, hsame⟩
      | cons top rest => exact ⟨rfl, hfound.valid, hsame⟩
    | some entry =>
      obtain ⟨top, rest, rfl, hlookup⟩ := hfound.held entry rfl
      obtain ⟨hvalid, hshows⟩ := spend_spec hfound.valid.1 hlookup
      refine ⟨rfl, ⟨hvalid, hfound.valid.2⟩, ?_⟩
      rw [← hfound.shows]
      exact funext hshows

lemma addCoinStack_spec (h : ValidLayers st.base st.layers) (hne : st.layers ≠ []) {o : COutPoint}
    {coin : Coin} {possible_overwrite : Bool} (hspent : coin.isSpent = false)
    (hfree : possible_overwrite = false → visible st.base st.layers o = none) :
    ∃ st', st.addCoin o coin possible_overwrite = .ok st' ∧ ValidLayers st'.base st'.layers ∧
      visible st'.base st'.layers =
        CoinsCall.apply (visible st.base st.layers) (.addCoin o coin possible_overwrite) := by
  obtain ⟨layer, layers, hlayers⟩ := exists_cons_of_ne_nil hne
  unfold CoinsStack.addCoin CoinsCall.apply
  rw [hlayers] at h hfree ⊢
  dsimp only
  cases hu : CScript.isUnspendable coin.out.scriptPubKey with
  | true =>
    have hadd : layer.addCoin o coin possible_overwrite = .ok layer := by
      unfold addCoin
      rw [if_neg (by rw [hspent]; decide), if_pos hu]
    rw [hadd, ok_bind]
    exact ⟨_, rfl, h, rfl⟩
  | false =>
    obtain ⟨layer', hadd, hvalid, hshows⟩ := addCoin_spec h.1 hspent hu hfree
    rw [hadd, ok_bind]
    exact ⟨_, rfl, ⟨hvalid, h.2⟩, funext hshows⟩

/-- A legal call does not throw, and changes the map that is shown as it changes a plain map. -/
theorem call_spec (h : ValidLayers st.base st.layers) {c : CoinsCall} (hlegal : c.Legal st) :
    ∃ st', st.call c = .ok st' ∧ ValidLayers st'.base st'.layers ∧
      visible st'.base st'.layers = c.apply (visible st.base st.layers) := by
  cases c with
  | addCoin o coin possible_overwrite => exact addCoinStack_spec h hlegal.1 hlegal.2.1 hlegal.2.2
  | spendCoin o =>
    obtain ⟨hbase, hvalid, hshows⟩ := spendCoin_spec h hlegal o
    exact ⟨_, rfl, by rwa [hbase], by rw [hbase]; exact hshows⟩
  | getCoin o =>
    obtain ⟨hfetched, -⟩ := getCoin_spec h o
    exact ⟨_, rfl, hfetched.valid, hfetched.shows⟩
  | haveCoin o =>
    have hfetched := fetched_fetchCoin h o
    exact ⟨_, rfl, hfetched.valid, hfetched.shows⟩
  | accessCoin o =>
    have hfetched := fetched_fetchCoin h o
    exact ⟨_, rfl, hfetched.valid, hfetched.shows⟩
  | uncache i o =>
    obtain ⟨hvalid, hshows⟩ := uncacheLayers_spec h i
    exact ⟨_, rfl, hvalid, hshows⟩
  | flush i keep mapCoins =>
    obtain ⟨layer, hi, hperm⟩ := hlegal
    obtain ⟨st', hrun, hvalid, -, hshows⟩ := flushLayers_spec h hi hperm
    exact ⟨st', hrun, hvalid, hshows 0 (zero_le i)⟩
  | push => exact ⟨_, rfl, ⟨valid_empty _, h⟩, rfl⟩
  | pop =>
    obtain ⟨top, layers, hlayers, hclean⟩ := hlegal
    rw [hlayers] at h
    refine ⟨⟨st.base, layers⟩, by rw [CoinsStack.call, hlayers]; rfl, h.2, ?_⟩
    funext o
    rw [hlayers]
    refine (shown_of_clean (h.1.fits o) ?_).symm
    intro mark hmark
    obtain ⟨entry, hentry, rfl⟩ := map_eq_some_iff.mp hmark
    exact hclean o entry hentry

/-- The stacks that calls lead to from new caches over a base view, each with the map that the same
calls make of the coins of the base view. -/
inductive StackRun : CoinsStack → (COutPoint → Option Coin) → Prop where
  | start (base : COutPoint → Option Coin) (n : ℕ) :
      StackRun ⟨base, List.replicate n empty⟩ (fun o => (base o).bind Coin.unspent)
  | call {st st' : CoinsStack} {m : COutPoint → Option Coin} {c : CoinsCall} :
      StackRun st m → c.Legal st → st.call c = .ok st' → StackRun st' (c.apply m)

lemma valid_replicate (base : COutPoint → Option Coin) (n : ℕ) :
    ValidLayers base (List.replicate n empty) ∧
      visible base (List.replicate n empty) = fun o => (base o).bind Coin.unspent := by
  induction n with
  | zero => exact ⟨trivial, rfl⟩
  | succ n ih => exact ⟨⟨valid_empty _, ih.1⟩, ih.2⟩

lemma StackRun.valid (h : StackRun st m) : ValidLayers st.base st.layers ∧ visible st.base st.layers = m := by
  induction h with
  | start base n => exact valid_replicate base n
  | call _ hlegal hcall ih =>
    obtain ⟨st', hrun, hvalid, hshows⟩ := call_spec ih.1 hlegal
    obtain rfl := Except.ok.inj (hrun.symm.trans hcall)
    exact ⟨hvalid, by rw [hshows, ih.2]⟩

lemma ValidLayers.drop {base : COutPoint → Option Coin} {layers : List CoinsLayer} (h : ValidLayers base layers)
    (j : ℕ) : ValidLayers base (layers.drop j) := by
  induction layers generalizing j with
  | nil => rwa [drop_nil]
  | cons layer layers ih =>
    cases j with
    | zero => exact h
    | succ j => exact ih h.2 j

lemma ValidLayers.usage {base : COutPoint → Option Coin} {layers : List CoinsLayer}
    (h : ValidLayers base layers) : ∀ layer ∈ layers, layer.cachedCoinsUsage = layer.sumUsage := by
  induction layers with
  | nil => simp
  | cons layer layers ih => exact forall_mem_cons.mpr ⟨h.1.usage, ih h.2⟩

lemma getCoin_eq {base : COutPoint → Option Coin} {layers : List CoinsLayer} (h : ValidLayers base layers)
    (hne : layers ≠ []) (o : COutPoint) : (getCoin base layers o).2 = visible base layers o := by
  obtain ⟨layer, layers, rfl⟩ := exists_cons_of_ne_nil hne
  exact (fetchCoin_spec h o).answer

/-- The stack behaves like the map `m`. -/
structure Refines (st : CoinsStack) (m : COutPoint → Option Coin) : Prop where
  shows : visible st.base st.layers = m
  getCoin : ∀ j o, st.layers.drop j ≠ [] →
    (getCoin st.base (st.layers.drop j) o).2 = visible st.base (st.layers.drop j) o
  haveCoin : st.layers ≠ [] → ∀ o, (st.haveCoin o).2 = (m o).isSome
  accessCoin : st.layers ≠ [] → ∀ o, (st.accessCoin o).2.unspent = m o
  usage : ∀ layer ∈ st.layers, layer.cachedCoinsUsage = layer.sumUsage
  call : ∀ c : CoinsCall, c.Legal st → ∃ st', st.call c = .ok st' ∧ visible st'.base st'.layers = c.apply m
  flush : ∀ i keep mapCoins st', (CoinsCall.flush i keep mapCoins).Legal st →
    st.call (.flush i keep mapCoins) = .ok st' →
    ∀ j ≤ i, visible st'.base (st'.layers.drop j) = visible st.base (st.layers.drop j)

/-- In every run the stack of caches refines the plain map. -/
theorem stackRun_refines (st : CoinsStack) (m : COutPoint → Option Coin) (hrun : StackRun st m) :
    Refines st m := by
  obtain ⟨hvalid, hshows⟩ := hrun.valid
  have hanswer : st.layers ≠ [] → ∀ o,
      (fetchCoin st.base st.layers o).2.bind (fun entry => entry.coin.unspent) = m o := by
    intro hne o
    obtain ⟨layer, layers, hlayers⟩ := exists_cons_of_ne_nil hne
    rw [hlayers] at hvalid hshows ⊢
    rw [(fetchCoin_spec hvalid o).answer, hshows]
  refine ⟨hshows, fun j o hne => getCoin_eq (hvalid.drop j) hne o, ?_, ?_, hvalid.usage, ?_, ?_⟩
  · intro hne o
    rw [← hanswer hne o]
    show (fetchCoin st.base st.layers o).2.elim false _ = _
    cases (fetchCoin st.base st.layers o).2 with
    | none => rfl
    | some entry => exact (isSome_unspent entry.coin).symm
  · intro hne o
    rw [← hanswer hne o]
    show ((fetchCoin st.base st.layers o).2.elim Coin.empty _).unspent = _
    cases (fetchCoin st.base st.layers o).2 with
    | none => exact unspent_empty
    | some entry => rfl
  · intro c hlegal
    obtain ⟨st', hcall, -, hshows'⟩ := call_spec hvalid hlegal
    exact ⟨st', hcall, by rw [hshows', hshows]⟩
  · rintro i keep mapCoins st' ⟨layer, hi, hperm⟩ hcall
    obtain ⟨st₁, hflush, -, -, hsame⟩ := flushLayers_spec hvalid hi hperm
    obtain rfl := Except.ok.inj (hflush.symm.trans hcall)
    exact hsame

/-- Two new caches over a base view with one coin. -/
def fundedStack : CoinsStack :=
  ⟨fun o => if o = fundingOutpoint then some fundingCoin else none, List.replicate 2 empty⟩

/-- What the top cache flushes when the coin is spent. -/
def spentFunding : List (Sigma fun _ : COutPoint => CCoinsCacheEntry) := [⟨fundingOutpoint, ⟨Coin.empty, true, false⟩⟩]

theorem stackRun_refines_fundedStack :
    ∃ st, [.spendCoin fundingOutpoint, .flush 0 (fun _ => false) spentFunding, .pop, .push,
        .addCoin COutPoint.null fundingCoin true].foldlM CoinsStack.call fundedStack = .ok st ∧
      Refines st (Function.update (Function.update (fun o => (fundedStack.base o).bind Coin.unspent) fundingOutpoint none)
        COutPoint.null (some fundingCoin)) := by
  have hspent := StackRun.call (.start fundedStack.base 2) (c := .spendCoin fundingOutpoint) (by simp [CoinsCall.Legal]) rfl
  have hflushed := hspent.call (c := .flush 0 (fun _ => false) spentFunding) ⟨_, rfl, Perm.refl _⟩ rfl
  have hpopped := hflushed.call (c := .pop) ⟨_, _, rfl, fun o entry h => nomatch h⟩ rfl
  have hpushed := hpopped.call (c := .push) trivial rfl
  have hadded := hpushed.call (c := .addCoin COutPoint.null fundingCoin true) ⟨by simp, rfl, nofun⟩ rfl
  exact ⟨_, rfl, stackRun_refines _ _ hadded⟩

end Calls

end MutableBitcoin
