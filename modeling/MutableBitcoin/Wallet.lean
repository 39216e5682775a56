import MutableBitcoin.Mempool

/-!
# Wallet transactions

The record that a wallet keeps of a transaction, from `wallet/wallet.h`.
-/

namespace MutableBitcoin
open Lib

variable {sha256 : Bytes → Uint256}

/-- A transaction of the wallet; only the transaction itself is read of the record. -/
structure CWalletTx (sha256 : Bytes → Uint256) where
  tx : CTransaction sha256

namespace CWalletTx

def getHash (wtx : CWalletTx sha256) : Uint256 := wtx.tx.hash

end CWalletTx

end MutableBitcoin
