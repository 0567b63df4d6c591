import Mathlib.Data.List.Basic
import Mathlib.Algebra.Order.Ring.Nat

namespace Primitives

/-!
# Cryptographic primitives as functions

What the standards define about them and nothing about security: authenticated
encryption, which decryption inverts, a keyed function of one output length, the
iterated key expansion over it, and objects that are fed a text in parts.
-/

/-- Authenticated encryption with keys `κ`, nonces `ν`, tags `τ` and texts over
`α`.  The functions have no value outside of the algorithm's domain. -/
structure Aead (κ ν τ α : Type) where
  encrypt : κ → ν → List α → List α → Option (List α × τ)
  decrypt : κ → ν → List α → List α → τ → Option (List α)
  length_encrypt : ∀ key nonce aad plaintext ciphertext tag,
    encrypt key nonce aad plaintext = some (ciphertext, tag) →
      ciphertext.length = plaintext.length
  decrypt_iff : ∀ key nonce aad ciphertext tag plaintext,
    decrypt key nonce aad ciphertext tag = some plaintext ↔
      encrypt key nonce aad plaintext = some (ciphertext, tag)

/-! ## Key expansion -/

/-- A keyed function whose values have one length. -/
structure Mac (κ α : Type) where
  width : Nat
  tag : κ → List α → List α
  width_pos : 0 < width
  length_tag : ∀ key text, (tag key text).length = width

namespace Mac

variable {κ α : Type} (mac : Mac κ α) (counter : Nat → α) (key : κ)
  (info : List α)

/-- The block of an index: the tag of the block before it, the info and the
counter.  Nothing comes before the first block. -/
def block : Nat → List α
  | 0 => []
  | index + 1 => mac.tag key (block index ++ info ++ [counter (index + 1)])

/-- The first blocks in a row. -/
def blocks : Nat → List α
  | 0 => []
  | count + 1 => blocks count ++ mac.block counter key info (count + 1)

/-- HKDF-Expand: the first `length` elements of as many blocks as they take. -/
def expand (length : Nat) : List α :=
  (mac.blocks counter key info ((length + mac.width - 1) / mac.width)).take
    length

theorem length_blocks (count : Nat) :
    (mac.blocks counter key info count).length = count * mac.width := by
  induction count with
  | zero =>
      simp [blocks]
  | succ count inductionHypothesis =>
      rw [blocks, List.length_append, inductionHypothesis, block,
        mac.length_tag, Nat.succ_mul]

/-- The expansion has the length it was asked for. -/
theorem length_expand (length : Nat) :
    (mac.expand counter key info length).length = length := by
  have enough :
      length ≤ (length + mac.width - 1) / mac.width * mac.width := by
    have positive := mac.width_pos
    have rest := Nat.mod_lt (length + mac.width - 1) positive
    have whole := Nat.div_add_mod (length + mac.width - 1) mac.width
    rw [Nat.mul_comm] at whole
    omega
  rw [expand, List.length_take, length_blocks]
  exact Nat.min_eq_left enough

/-- An expansion within one block is the beginning of one tag. -/
theorem expand_of_le_width
    {length : Nat}
    (short : length ≤ mac.width) :
    mac.expand counter key info length =
      (mac.tag key (info ++ [counter 1])).take length := by
  have positive := mac.width_pos
  rcases Nat.eq_zero_or_pos length with rfl | nonzero
  · simp [expand]
  · have single : (length + mac.width - 1) / mac.width = 1 :=
      Nat.div_eq_of_lt_le (by omega) (by omega)
    simp only [expand, single, blocks, block, List.nil_append]

end Mac

/-! ## Texts in parts -/

section Parts

variable {κ α σ β : Type}

/-- The object was started under the key and has been fed the text since. -/
inductive Fed (start : κ → Option σ) (feed : σ → List α → Option σ) :
    σ → κ → List α → Prop where
  | started {state : σ} {key : κ}
      (success : start key = some state) :
      Fed start feed state key []
  | part {state next : σ} {key : κ} {text part : List α}
      (before : Fed start feed state key text)
      (success : feed state part = some next) :
      Fed start feed next key (text ++ part)

/-- The objects never fail, and finishing one gives the value of all that it
was fed: parts concatenate. -/
structure Computes (start : κ → Option σ) (feed : σ → List α → Option σ)
    (finish : σ → Option β) (value : κ → List α → β) : Prop where
  starts : ∀ key, ∃ state, start key = some state
  feeds : ∀ state key text part,
    Fed start feed state key text → ∃ next, feed state part = some next
  finishes : ∀ state key text,
    Fed start feed state key text → finish state = some (value key text)

/-- However the text is split into parts, an object can be fed all of them. -/
theorem Computes.feedAll
    {start : κ → Option σ}
    {feed : σ → List α → Option σ}
    {finish : σ → Option β}
    {value : κ → List α → β}
    {state : σ}
    {key : κ}
    {text : List α}
    (computes : Computes start feed finish value)
    (fed : Fed start feed state key text)
    (parts : List (List α)) :
    ∃ last, parts.foldlM feed state = some last ∧
      Fed start feed last key (text ++ parts.flatten) := by
  induction parts generalizing state text with
  | nil =>
      refine ⟨state, rfl, ?_⟩
      rwa [List.flatten_nil, List.append_nil]
  | cons part later inductionHypothesis =>
      obtain ⟨next, success⟩ := computes.feeds state key text part fed
      obtain ⟨last, whole, ended⟩ := inductionHypothesis (fed.part success)
      refine ⟨last, ?_, ?_⟩
      · rw [List.foldlM_cons, success]
        exact whole
      · rwa [List.flatten_cons, ← List.append_assoc]

end Parts

end Primitives
