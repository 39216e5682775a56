import Mathlib.Data.Fintype.EquivFin

/-!
# Cipher block chaining

Each block is mixed with the ciphertext before it and then encrypted. Over any blocks with a mixing
that undoes itself, decryption inverts encryption where it does so on single blocks.
-/

namespace MutableBitcoin.Lib
open List

variable {β : Type} (mix : β → β → β) (enc dec : β → β)

def chainEncrypt : β → List β → List β
  | _, [] => []
  | prev, block :: blocks => enc (mix prev block) :: chainEncrypt (enc (mix prev block)) blocks

def chainDecrypt : β → List β → List β
  | _, [] => []
  | prev, cipher :: ciphers => mix (dec cipher) prev :: chainDecrypt cipher ciphers

@[simp] lemma length_chainEncrypt (prev : β) (blocks : List β) :
    (chainEncrypt mix enc prev blocks).length = blocks.length := by
  induction blocks generalizing prev with
  | nil => rfl
  | cons block blocks ih => rw [chainEncrypt, length_cons, ih, length_cons]

@[simp] lemma length_chainDecrypt (prev : β) (ciphers : List β) :
    (chainDecrypt mix dec prev ciphers).length = ciphers.length := by
  induction ciphers generalizing prev with
  | nil => rfl
  | cons cipher ciphers ih => rw [chainDecrypt, length_cons, ih, length_cons]

lemma chainEncrypt_append_singleton (prev block : β) (blocks : List β) :
    chainEncrypt mix enc prev (blocks ++ [block]) =
      chainEncrypt mix enc prev blocks ++ [enc (mix ((chainEncrypt mix enc prev blocks).getLastD prev) block)] := by
  induction blocks generalizing prev with
  | nil => rfl
  | cons first blocks ih => rw [cons_append, chainEncrypt, ih, chainEncrypt, cons_append, getLastD_cons]

variable {mix enc dec}

lemma chainDecrypt_chainEncrypt (hdec : ∀ b, dec (enc b) = b) (hmix : ∀ a b, mix (mix a b) a = b)
    (prev : β) (blocks : List β) : chainDecrypt mix dec prev (chainEncrypt mix enc prev blocks) = blocks := by
  induction blocks generalizing prev with
  | nil => rfl
  | cons block blocks ih => rw [chainEncrypt, chainDecrypt, hdec, hmix, ih]

lemma enc_dec_of_dec_enc [Finite β] (hdec : ∀ b, dec (enc b) = b) (c : β) : enc (dec c) = c := by
  have hinjective : Function.Injective enc := Function.LeftInverse.injective hdec
  obtain ⟨b, rfl⟩ := Finite.surjective_of_injective hinjective c
  rw [hdec]

lemma chainEncrypt_chainDecrypt (henc : ∀ c, enc (dec c) = c) (hmix : ∀ a b, mix b (mix a b) = a)
    (prev : β) (ciphers : List β) : chainEncrypt mix enc prev (chainDecrypt mix dec prev ciphers) = ciphers := by
  induction ciphers generalizing prev with
  | nil => rfl
  | cons cipher ciphers ih => rw [chainDecrypt, chainEncrypt, hmix, henc, ih]

end MutableBitcoin.Lib
