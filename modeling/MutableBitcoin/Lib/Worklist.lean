import Mathlib.Data.Finset.Card
import Mathlib.Data.Finset.Union

/-!
# Closing a set under successors

A worklist takes an element from the stage, adds it to the finished set and stages those of its
successors that are not finished. Any order of taking the elements gives the same set.
-/

namespace MutableBitcoin.Lib
open Finset

variable {α : Type*} [DecidableEq α]

/-- `y` is reached from `x` along successors. -/
def Reaches (next : α → Finset α) : α → α → Prop := Relation.ReflTransGen (fun a b => b ∈ next a)

/-- Takes elements off the stage until it is empty. -/
def worklist (first : Finset α → Option α) (next : α → Finset α) : ℕ → Finset α → Finset α → Finset α
  | 0, _, finished => finished
  | fuel + 1, stage, finished =>
    match first stage with
    | none => finished
    | some x =>
      worklist first next fuel (stage.erase x ∪ (next x).filter (· ∉ insert x finished)) (insert x finished)

lemma card_sdiff_insert_lt {univ s : Finset α} {x : α} (hx : x ∈ univ) (hnew : x ∉ s) :
    (univ \ insert x s).card < (univ \ s).card := by
  apply card_lt_card
  rw [ssubset_iff_of_subset (sdiff_subset_sdiff le_rfl (subset_insert _ _))]
  exact ⟨x, mem_sdiff.mpr ⟨hx, hnew⟩, by simp⟩

/-- `first` takes an element of the set if there is one. -/
structure Takes (first : Finset α → Option α) : Prop where
  mem : ∀ {s x}, first s = some x → x ∈ s
  empty : ∀ {s}, first s = none → s = ∅

section Closure

variable {first : Finset α → Option α} {next : α → Finset α} {univ stage finished : Finset α}

/-- Stage and finished set of a worklist. -/
structure Staged (next : α → Finset α) (univ stage finished : Finset α) : Prop where
  stage_sub : stage ⊆ univ
  next_sub : ∀ x ∈ univ, next x ⊆ univ
  fresh : Disjoint stage finished
  closed : ∀ x ∈ finished, next x ⊆ finished ∪ stage

lemma Staged.step (h : Staged next univ stage finished) {x : α} (hx : x ∈ stage) :
    Staged next univ (stage.erase x ∪ (next x).filter (· ∉ insert x finished)) (insert x finished) := by
  refine ⟨?_, h.next_sub, ?_, ?_⟩
  · apply union_subset ((erase_subset _ _).trans h.stage_sub)
    exact (filter_subset _ _).trans (h.next_sub x (h.stage_sub hx))
  · rw [disjoint_left]
    intro y hy
    rw [mem_union, mem_erase, mem_filter] at hy
    obtain ⟨hne, hy⟩ | ⟨-, hy⟩ := hy
    · rw [mem_insert, not_or]
      exact ⟨hne, disjoint_left.mp h.fresh hy⟩
    · exact hy
  · intro y hy z hz
    rw [mem_union]
    by_cases hfin : z ∈ insert x finished
    · exact Or.inl hfin
    · right
      rw [mem_union]
      obtain rfl | hy := mem_insert.mp hy
      · exact Or.inr (mem_filter.mpr ⟨hz, hfin⟩)
      · left
        rw [mem_insert, not_or] at hfin
        have hmem := h.closed y hy hz
        rw [mem_union] at hmem
        exact mem_erase.mpr ⟨hfin.1, hmem.resolve_left hfin.2⟩

lemma Staged.reaches_step (h : Staged next univ stage finished) {x z y : α} (hx : x ∈ stage)
    (hz : z ∈ stage) (hreach : Reaches next z y) :
    y ∈ insert x finished ∨
      ∃ w ∈ stage.erase x ∪ (next x).filter (· ∉ insert x finished), Reaches next w y := by
  induction hreach with
  | refl =>
    by_cases hzx : z = x
    · exact Or.inl (mem_insert.mpr (Or.inl hzx))
    · exact Or.inr ⟨z, mem_union_left _ (mem_erase.mpr ⟨hzx, hz⟩), Relation.ReflTransGen.refl⟩
  | tail _ hstep ih =>
    obtain hfin | ⟨w, hw, hreach⟩ := ih
    · have hnext := (h.step hx).closed _ hfin hstep
      rw [mem_union] at hnext
      obtain hnext | hnext := hnext
      · exact Or.inl hnext
      · exact Or.inr ⟨_, hnext, Relation.ReflTransGen.refl⟩
    · exact Or.inr ⟨w, hw, hreach.tail hstep⟩

lemma Staged.covered_step (h : Staged next univ stage finished) {x : α} (hx : x ∈ stage) {y : α} :
    (y ∈ insert x finished ∨
      ∃ z ∈ stage.erase x ∪ (next x).filter (· ∉ insert x finished), Reaches next z y) ↔
      y ∈ finished ∨ ∃ z ∈ stage, Reaches next z y := by
  constructor
  · rintro (hy | ⟨z, hz, hreach⟩)
    · obtain rfl | hy := mem_insert.mp hy
      · exact Or.inr ⟨y, hx, Relation.ReflTransGen.refl⟩
      · exact Or.inl hy
    · rw [mem_union, mem_erase, mem_filter] at hz
      obtain ⟨-, hz⟩ | ⟨hz, -⟩ := hz
      · exact Or.inr ⟨z, hz, hreach⟩
      · exact Or.inr ⟨x, hx, Relation.ReflTransGen.head hz hreach⟩
  · rintro (hy | ⟨z, hz, hreach⟩)
    · exact Or.inl (mem_insert_of_mem hy)
    · exact h.reaches_step hx hz hreach

lemma Staged.stage_empty (h : Staged next univ stage finished) (hfuel : (univ \ finished).card ≤ 0) : stage = ∅ := by
  have hsub : univ ⊆ finished := by
    rwa [Nat.le_zero, card_eq_zero, sdiff_eq_empty_iff_subset] at hfuel
  apply eq_empty_of_forall_notMem
  intro x hx
  exact absurd (hsub (h.stage_sub hx)) (disjoint_left.mp h.fresh hx)

lemma Staged.fuel_step (h : Staged next univ stage finished) {fuel : ℕ} (hfuel : (univ \ finished).card ≤ fuel + 1)
    {x : α} (hx : x ∈ stage) : (univ \ insert x finished).card ≤ fuel := by
  have hlt := card_sdiff_insert_lt (h.stage_sub hx) (disjoint_left.mp h.fresh hx)
  omega

/-- The loop adds exactly what the stage reaches. -/
theorem mem_worklist_iff (hfirst : Takes first) {fuel : ℕ} (h : Staged next univ stage finished)
    (hfuel : (univ \ finished).card ≤ fuel) {y : α} :
    y ∈ worklist first next fuel stage finished ↔ y ∈ finished ∨ ∃ x ∈ stage, Reaches next x y := by
  induction fuel generalizing stage finished with
  | zero =>
    rw [h.stage_empty hfuel]
    simp [worklist]
  | succ fuel ih =>
    unfold worklist
    cases hx : first stage with
    | none =>
      rw [hfirst.empty hx]
      simp
    | some x =>
      have hmem := hfirst.mem hx
      dsimp only
      rw [ih (h.step hmem) (h.fuel_step hfuel hmem), h.covered_step hmem]

end Closure

end MutableBitcoin.Lib

/-!
## A search with known answers

A worklist that need not go through an element whose answer is known. The answers leave out a set of
elements, so the search is exact outside this set only.
-/

namespace MutableBitcoin.Lib
open Finset

variable {α : Type*}

section Progress

variable {next : α → Finset α} {univ skip start found : Finset α}

/-- All that `c` reaches is found, but for what is skipped. -/
def Answered (next : α → Finset α) (skip found : Finset α) (c : α) : Prop :=
  ∀ y ∉ skip, Reaches next c y → y ∈ found

lemma Answered.mono {found' : Finset α} {c : α} (h : Answered next skip found c) (hsub : found ⊆ found') :
    Answered next skip found' c :=
  fun y hy hreach => hsub (h y hy hreach)

/-- The invariant of a search that skips a set. -/
structure Searching (next : α → Finset α) (univ skip start stage found popped : Finset α) : Prop where
  stage_sub : stage ⊆ univ
  popped_sub : popped ⊆ found
  fresh : Disjoint stage popped
  sound : ∀ z, z ∈ stage ∨ z ∈ found → ∃ s ∈ start, Reaches next s z
  begun : ∀ s ∈ start, s ∈ found ∨ s ∈ stage
  closed : ∀ z ∈ found, ∀ c ∈ next z, (c ∈ found ∨ c ∈ stage) ∨ Answered next skip found c

lemma searching_start (hstart : start ⊆ univ) : Searching next univ skip start start ∅ ∅ := by
  refine ⟨hstart, le_rfl, disjoint_empty_right _, ?_, fun s hs => Or.inr hs, ?_⟩
  · rintro z (hz | hz)
    · exact ⟨z, hz, Relation.ReflTransGen.refl⟩
    · exact absurd hz (notMem_empty z)
  · intro z hz
    exact absurd hz (notMem_empty z)

lemma Searching.finished {popped : Finset α} (h : Searching next univ skip start ∅ found popped) {y : α}
    (hy : y ∉ skip) : y ∈ found ↔ ∃ s ∈ start, Reaches next s y := by
  constructor
  · intro hfound
    exact h.sound y (Or.inr hfound)
  · rintro ⟨s, hs, hreach⟩
    have hpath : ∀ z, Reaches next s z → z ∈ found ∨ Answered next skip found z := by
      intro z hz
      induction hz with
      | refl => exact Or.inl ((h.begun s hs).resolve_right (notMem_empty s))
      | @tail z c _ hstep ih =>
        obtain hz | hans := ih
        · obtain (hfound | hstage) | hans := h.closed z hz c hstep
          · exact Or.inl hfound
          · exact absurd hstage (notMem_empty c)
          · exact Or.inr hans
        · exact Or.inr fun w hw hreach => hans w hw (Relation.ReflTransGen.head hstep hreach)
    obtain hfound | hans := hpath y hreach
    · exact hfound
    · exact hans y hy Relation.ReflTransGen.refl

end Progress

variable [DecidableEq α]

def stageNext (cache : α → Option (Finset α)) (st : Finset α × Finset α) (c : α) : Finset α × Finset α :=
  match cache c with
  | some cached => (st.1, st.2 ∪ cached)
  | none => if c ∈ st.2 then st else (insert c st.1, st.2)

/-- The search that looks an answer up first. -/
def cachedSearch (first : Finset α → Option α) (order : Finset α → List α) (next : α → Finset α)
    (cache : α → Option (Finset α)) : ℕ → Finset α → Finset α → Finset α
  | 0, _, found => found
  | fuel + 1, stage, found =>
    match first stage with
    | none => found
    | some x =>
      let st := (order (next x)).foldl (stageNext cache) (stage.erase x, insert x found)
      cachedSearch first order next cache fuel st.1 st.2

section Step

variable {cache : α → Option (Finset α)}

/-- What staging the successors of one element does. -/
structure StagedNext (cache : α → Option (Finset α)) (l : List α) (st st' : Finset α × Finset α) : Prop where
  stage : st.1 ⊆ st'.1
  found : st.2 ⊆ st'.2
  stage_new : ∀ z ∈ st'.1, z ∈ st.1 ∨ z ∈ l ∧ z ∉ st.2
  found_new : ∀ z ∈ st'.2, z ∈ st.2 ∨ ∃ c ∈ l, ∃ cached, cache c = some cached ∧ z ∈ cached
  known : ∀ c ∈ l, ∀ cached, cache c = some cached → cached ⊆ st'.2
  unknown : ∀ c ∈ l, cache c = none → c ∈ st'.1 ∨ c ∈ st'.2

lemma stagedNext_foldl (l : List α) (st : Finset α × Finset α) :
    StagedNext cache l st (l.foldl (stageNext cache) st) := by
  induction l generalizing st with
  | nil => exact ⟨le_rfl, le_rfl, fun _ h => Or.inl h, fun _ h => Or.inl h, nofun, nofun⟩
  | cons c l ih =>
    obtain ⟨hstage, hfound, hstageNew, hfoundNew, hknown, hunknown⟩ := ih (stageNext cache st c)
    rw [List.foldl_cons]
    cases hc : cache c with
    | some cached =>
      have hst : stageNext cache st c = (st.1, st.2 ∪ cached) := by
        rw [stageNext, hc]
      rw [hst] at hstage hfound hstageNew hfoundNew hknown hunknown ⊢
      refine ⟨hstage, union_subset_left hfound, ?_, ?_, ?_, ?_⟩
      · intro z hz
        obtain hz | ⟨hzl, hz⟩ := hstageNew z hz
        · exact Or.inl hz
        · exact Or.inr ⟨List.mem_cons_of_mem c hzl, fun h => hz (mem_union_left _ h)⟩
      · intro z hz
        obtain hz | ⟨c', hc', hz⟩ := hfoundNew z hz
        · obtain hz | hz := mem_union.mp hz
          · exact Or.inl hz
          · exact Or.inr ⟨c, List.mem_cons_self, cached, hc, hz⟩
        · exact Or.inr ⟨c', List.mem_cons_of_mem c hc', hz⟩
      · intro c' hc' cached' hcached'
        obtain rfl | hc' := List.mem_cons.mp hc'
        · rw [hc, Option.some.injEq] at hcached'
          exact hcached' ▸ union_subset_right hfound
        · exact hknown c' hc' cached' hcached'
      · intro c' hc' hnone
        obtain rfl | hc' := List.mem_cons.mp hc'
        · rw [hc] at hnone
          cases hnone
        · exact hunknown c' hc' hnone
    | none =>
      have hst : stageNext cache st c = if c ∈ st.2 then st else (insert c st.1, st.2) := by
        rw [stageNext, hc]
      have hst2 : (stageNext cache st c).2 = st.2 := by
        rw [hst]
        split_ifs <;> rfl
      have hst1 : ∀ z, z ∈ (stageNext cache st c).1 ↔ z ∈ st.1 ∨ z = c ∧ c ∉ st.2 := by
        intro z
        rw [hst]
        split_ifs with hmem
        · simp [hmem]
        · simp [hmem, or_comm]
      rw [hst2] at hfound hstageNew hfoundNew
      refine ⟨fun z hz => hstage ((hst1 z).mpr (Or.inl hz)), hfound, ?_, ?_, ?_, ?_⟩
      · intro z hz
        obtain hz | ⟨hzl, hz⟩ := hstageNew z hz
        · obtain hz | ⟨rfl, hz⟩ := (hst1 z).mp hz
          · exact Or.inl hz
          · exact Or.inr ⟨List.mem_cons_self, hz⟩
        · exact Or.inr ⟨List.mem_cons_of_mem c hzl, hz⟩
      · intro z hz
        obtain hz | ⟨c', hc', hz⟩ := hfoundNew z hz
        · exact Or.inl hz
        · exact Or.inr ⟨c', List.mem_cons_of_mem c hc', hz⟩
      · intro c' hc' cached' hcached'
        obtain rfl | hc' := List.mem_cons.mp hc'
        · rw [hc] at hcached'
          cases hcached'
        · exact hknown c' hc' cached' hcached'
      · intro c' hc' hnone
        obtain rfl | hc' := List.mem_cons.mp hc'
        · by_cases hmem : c' ∈ st.2
          · exact Or.inr (hfound hmem)
          · exact Or.inl (hstage ((hst1 c').mpr (Or.inr ⟨rfl, hmem⟩)))
        · exact hunknown c' hc' hnone

end Step

section Search

variable {first : Finset α → Option α} {order : Finset α → List α} {next : α → Finset α}
  {cache : α → Option (Finset α)} {univ skip start stage found : Finset α}

lemma Searching.step {popped : Finset α} (h : Searching next univ skip start stage found popped)
    (hnext : ∀ x ∈ univ, next x ⊆ univ)
    (hcache : ∀ c cached, cache c = some cached → ∀ y, y ∈ cached ↔ y ∉ skip ∧ Reaches next c y) {x : α}
    (hx : x ∈ stage) {l : List α} (hl : ∀ c, c ∈ l ↔ c ∈ next x) {st : Finset α × Finset α}
    (hst : StagedNext cache l (stage.erase x, insert x found) st) :
    Searching next univ skip start st.1 st.2 (insert x popped) := by
  obtain ⟨s, hs, hsx⟩ := h.sound x (Or.inl hx)
  have hkept : found ⊆ st.2 := (subset_insert x found).trans hst.found
  have hxfound : x ∈ st.2 := hst.found (mem_insert_self x found)
  refine ⟨?_, ?_, ?_, ?_, ?_, ?_⟩
  · intro z hz
    obtain hz | ⟨hz, -⟩ := hst.stage_new z hz
    · exact h.stage_sub (mem_of_mem_erase hz)
    · exact hnext x (h.stage_sub hx) ((hl z).mp hz)
  · apply insert_subset hxfound
    exact h.popped_sub.trans hkept
  · rw [disjoint_left]
    intro z hz hpopped
    obtain hz | ⟨-, hz⟩ := hst.stage_new z hz
    · obtain ⟨hne, hz⟩ := mem_erase.mp hz
      obtain rfl | hpopped := mem_insert.mp hpopped
      · exact hne rfl
      · exact disjoint_left.mp h.fresh hz hpopped
    · obtain rfl | hpopped := mem_insert.mp hpopped
      · exact hz (mem_insert_self z found)
      · exact hz (mem_insert_of_mem (h.popped_sub hpopped))
  · rintro z (hz | hz)
    · obtain hz | ⟨hz, -⟩ := hst.stage_new z hz
      · exact h.sound z (Or.inl (mem_of_mem_erase hz))
      · exact ⟨s, hs, Relation.ReflTransGen.tail hsx ((hl z).mp hz)⟩
    · obtain hz | ⟨c, hc, cached, hcached, hz⟩ := hst.found_new z hz
      · obtain rfl | hz := mem_insert.mp hz
        · exact ⟨s, hs, hsx⟩
        · exact h.sound z (Or.inr hz)
      · exact ⟨s, hs, Relation.ReflTransGen.trans (Relation.ReflTransGen.tail hsx ((hl c).mp hc))
          ((hcache c cached hcached z).mp hz).2⟩
  · intro s' hs'
    obtain hfound | hstage := h.begun s' hs'
    · exact Or.inl (hkept hfound)
    · by_cases heq : s' = x
      · exact Or.inl (heq ▸ hxfound)
      · exact Or.inr (hst.stage (mem_erase.mpr ⟨heq, hstage⟩))
  · intro z hz c hc
    obtain hz | ⟨c₀, hc₀, cached, hcached, hz⟩ := hst.found_new z hz
    · obtain rfl | hz := mem_insert.mp hz
      · -- A successor of the element that was taken.
        cases hcc : cache c with
        | none => exact Or.inl (hst.unknown c ((hl c).mpr hc) hcc).symm
        | some cached =>
          right
          intro y hy hreach
          exact hst.known c ((hl c).mpr hc) cached hcc ((hcache c cached hcc y).mpr ⟨hy, hreach⟩)
      · obtain (hfound | hstage) | hans := h.closed z hz c hc
        · exact Or.inl (Or.inl (hkept hfound))
        · by_cases heq : c = x
          · exact Or.inl (Or.inl (heq ▸ hxfound))
          · exact Or.inl (Or.inr (hst.stage (mem_erase.mpr ⟨heq, hstage⟩)))
        · exact Or.inr (hans.mono hkept)
    · -- A successor inside a known answer, whose own answers are all in it.
      right
      intro y hy hreach
      have hz' := ((hcache c₀ cached hcached z).mp hz).2
      exact hst.known c₀ hc₀ cached hcached ((hcache c₀ cached hcached y).mpr
        ⟨hy, Relation.ReflTransGen.trans (Relation.ReflTransGen.tail hz' hc) hreach⟩)

/-- Outside the set that the answers leave out, the search finds exactly what the start reaches. -/
theorem mem_cachedSearch_iff (hfirst : Takes first) (horder : ∀ s x, x ∈ order s ↔ x ∈ s)
    (hnext : ∀ x ∈ univ, next x ⊆ univ)
    (hcache : ∀ c cached, cache c = some cached → ∀ y, y ∈ cached ↔ y ∉ skip ∧ Reaches next c y)
    (hstart : start ⊆ univ) {y : α} (hy : y ∉ skip) :
    y ∈ cachedSearch first order next cache univ.card start ∅ ↔ ∃ s ∈ start, Reaches next s y := by
  have hloop : ∀ (fuel : ℕ) (stage found popped : Finset α), Searching next univ skip start stage found popped →
      (univ \ popped).card ≤ fuel →
      (y ∈ cachedSearch first order next cache fuel stage found ↔ ∃ s ∈ start, Reaches next s y) := by
    intro fuel
    induction fuel with
    | zero =>
      intro stage found popped h hfuel
      have hsub : univ ⊆ popped := by
        rwa [Nat.le_zero, card_eq_zero, sdiff_eq_empty_iff_subset] at hfuel
      have hempty : stage = ∅ := by
        apply eq_empty_of_forall_notMem
        intro x hx
        exact disjoint_left.mp h.fresh hx (hsub (h.stage_sub hx))
      rw [hempty] at h
      exact h.finished hy
    | succ fuel ih =>
      intro stage found popped h hfuel
      unfold cachedSearch
      cases hx : first stage with
      | none =>
        rw [hfirst.empty hx] at h
        exact h.finished hy
      | some x =>
        have hmem := hfirst.mem hx
        have hnew : x ∉ popped := disjoint_left.mp h.fresh hmem
        apply ih _ _ (insert x popped)
          (h.step hnext hcache hmem (horder (next x)) (stagedNext_foldl _ _))
        have hlt := card_sdiff_insert_lt (h.stage_sub hmem) hnew
        omega
  exact hloop univ.card start ∅ ∅ (searching_start hstart) (by rw [sdiff_empty])

end Search

end MutableBitcoin.Lib
