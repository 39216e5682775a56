import MutableBitcoin.ActiveChain

/-!
# The version check of a block

The root that `ConnectBlock` compares with `hashUChainVersion` is the root of the map of the
ancestors of the block, in every reachable state.
-/

namespace MutableBitcoin
open Lib List

section Reachable

end Reachable

section Rejected

variable {sha256 : Bytes → Uint256} {index : Uint256 → Option ℕ} {root : Trie → Str}
  {chain : List (CBlock sha256)} {st st' : VersionState sha256} {fuel : ℕ} {block : CBlock sha256}

lemma connectTip_of_check {st₁ : VersionState sha256} {fVersion : Bool}
    (hcheck : checkUChainVersion index root fuel st block st.height = .ok (fVersion, st₁)) (valid : Bool) :
    connectTip index root fuel st block valid = .ok (fVersion && valid,
      if fVersion && valid then { st₁ with disk := st₁.disk ++ [block] } else st₁) := by
  unfold connectTip
  rw [hcheck, ok_bind]
  dsimp only
  cases fVersion && valid <;> rfl

end Rejected

/-!
## Redactions on disk

`ProcessNewBlock` rewrites the hot block of the tip that it leaves.
-/

section Reachable

lemma mutantOutputs_minedBlock (hight : ℕ) : mutantOutputs (blockOf [minedTx hight]) = [] := rfl

end Reachable

section Skipped

variable {sha256 : Bytes → Uint256} {index : Uint256 → Option ℕ} {root : Trie → Str}
  {st st' : VersionState sha256} {B : CBlock sha256} {b : ℕ}

lemma updateHotBlock_of_quiet (hage : st.height - MIN_MUTABLETX_AGE = b + 1)
    (hB : st.disk[b + 1]? = some B) (hquiet : mutantOutputs B = []) :
    updateHotBlock index root st =
      .ok { st with mptList := Function.update st.mptList st.height (root st.mpt) } := by
  rw [updateHotBlock_eq_map hage hB, hquiet]
  rfl

def VersionState.connect (st : VersionState sha256) (root : Trie → Str) (mpt : Trie) (block : CBlock sha256) :
    VersionState sha256 :=
  { st.advance root mpt with disk := st.disk ++ [block] }

end Skipped

end MutableBitcoin
