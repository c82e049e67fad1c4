import LayerGraph.Tensor
import Mathlib.Data.List.Basic

/-!
# Words and their bytes

A stream of words of one width and the list of these words determine each other. What was written
word by word is read back word by word (`LayerGraph.Bytes.words_flatMap_ofNat`), and what is read
from any bytes at all is written back as these bytes, but for an incomplete word at the end, which
is not read (`LayerGraph.Bytes.flatMap_ofNat_words`). Both hold of any width; floating values are
the words of their bits, so a stream of them is read back bit for bit.
-/

namespace LayerGraph

namespace Bytes

/-! ### One word -/

theorem twoPow_byte (n : Nat) : twoPow (8 * (n + 1)) = 256 * twoPow (8 * n) :=
  (Nat.pow_add 2 (8 * n) 8).trans (Nat.mul_comm _ _)

theorem toNat_ofNat (n w : Nat) : toNat (ofNat n w) = w % twoPow (8 * n) := by
  induction n generalizing w with
  | zero => exact (Nat.mod_one w).symm
  | succ n ih =>
    have hdigit : (UInt8.ofNat (w % 256)).toNat = w % 256 := by
      rw [UInt8.toNat_ofNat']
      exact Nat.mod_mod w 256
    rw [ofNat, toNat, ih, hdigit, twoPow_byte, Nat.mod_mul]

@[simp] theorem length_ofNat (n w : Nat) : (ofNat n w).length = n := by
  induction n generalizing w with
  | zero => rfl
  | succ n ih => rw [ofNat, List.length_cons, ih]

/-- Bytes are the digits of their number. -/
theorem ofNat_toNat (bs : Bytes) : ofNat bs.length (toNat bs) = bs := by
  induction bs with
  | nil => rfl
  | cons b bs ih =>
    have hb : b.toNat < 256 := b.toNat_lt
    have hdigit : (b.toNat + 256 * toNat bs) % 256 = b.toNat := by omega
    have hrest : (b.toNat + 256 * toNat bs) / 256 = toNat bs := by omega
    rw [List.length_cons, toNat, ofNat, hdigit, hrest, ih, UInt8.ofNat_toNat]

theorem toNat_lt (bs : Bytes) : toNat bs < twoPow (8 * bs.length) := by
  induction bs with
  | nil => exact Nat.zero_lt_one
  | cons b bs ih =>
    have hb : b.toNat < 256 := b.toNat_lt
    rw [toNat, List.length_cons, twoPow_byte]
    omega

/-! ### Streams of words -/

variable {n : Nat} {w bs : Bytes}

/-- A whole word in front is read first. -/
theorem words_append (hn : n ≠ 0) (hw : w.length = n) :
    words n (w ++ bs) = toNat w :: words n bs := by
  have htake : (w ++ bs).take n = w := List.take_left' hw
  have hdrop : (w ++ bs).drop n = bs := List.drop_left' hw
  rw [words, htake, hdrop, if_neg (by omega)]

/-- What is shorter than a word is not read. -/
theorem words_of_lt (h : bs.length < n) : words n bs = [] := by
  rw [words, if_pos]
  rw [List.length_take]
  omega

/-- **Words are read back** from their bytes. -/
theorem words_flatMap_ofNat (hn : n ≠ 0) {ws : List Nat} (hws : ∀ w ∈ ws, w < twoPow (8 * n)) :
    words n (ws.flatMap (ofNat n)) = ws := by
  induction ws with
  | nil => exact words_of_lt (Nat.pos_of_ne_zero hn)
  | cons w ws ih =>
    obtain ⟨hw, hws⟩ := List.forall_mem_cons.mp hws
    rw [List.flatMap_cons, words_append hn (length_ofNat n w), toNat_ofNat, Nat.mod_eq_of_lt hw,
      ih hws]

theorem length_flatMap_word {α : Type} (n : Nat) (word : α → Nat) (xs : List α) :
    (xs.flatMap fun x => ofNat n (word x)).length = n * xs.length := by
  induction xs with
  | nil => rfl
  | cons x xs ih =>
    rw [List.flatMap_cons, List.length_append, length_ofNat, ih, List.length_cons, Nat.mul_succ,
      Nat.add_comm]

/-- Values of any kind leave their words in the bytes of these. -/
theorem words_flatMap_word {α : Type} {word : α → Nat} (hn : n ≠ 0)
    (hword : ∀ x, word x < twoPow (8 * n)) (xs : List α) :
    words n (xs.flatMap fun x => ofNat n (word x)) = xs.map word := by
  have hflat : xs.flatMap (fun x => ofNat n (word x)) = (xs.map word).flatMap (ofNat n) :=
    (List.flatMap_map _ _ xs).symm
  rw [hflat, words_flatMap_ofNat hn]
  intro w hw
  obtain ⟨x, -, rfl⟩ := List.mem_map.mp hw
  exact hword x

/-- Bytes are an incomplete word, or a word and further bytes. -/
theorem words_induction {P : Bytes → Prop} (hn : n ≠ 0) (short : ∀ bs, bs.length < n → P bs)
    (word : ∀ w bs, w.length = n → P bs → P (w ++ bs)) (bs : Bytes) : P bs := by
  induction bs using words.induct n with
  | case1 bs h =>
    rw [List.length_take] at h
    exact short bs (by omega)
  | case2 bs h ih =>
    rw [List.length_take] at h
    rw [← List.take_append_drop n bs]
    exact word _ _ (List.length_take_of_le (by omega)) ih

/-- As many words are read as fit in. -/
theorem length_words (hn : n ≠ 0) (bs : Bytes) : (words n bs).length = bs.length / n := by
  induction bs using words_induction hn with
  | short bs hlt => rw [words_of_lt hlt, Nat.div_eq_of_lt hlt, List.length_nil]
  | word w bs hw ih =>
    rw [words_append hn hw, List.length_cons, ih, List.length_append, hw,
      Nat.add_div_left _ (Nat.pos_of_ne_zero hn)]

theorem lt_of_mem_words (hn : n ≠ 0) {v : Nat} (hv : v ∈ words n bs) : v < twoPow (8 * n) := by
  induction bs using words_induction hn with
  | short bs hlt =>
    rw [words_of_lt hlt] at hv
    exact absurd hv List.not_mem_nil
  | word w bs hw ih =>
    rw [words_append hn hw] at hv
    rcases List.mem_cons.mp hv with rfl | hv
    · exact hw ▸ toNat_lt w
    · exact ih hv

/-- **Bytes are written back** from their words, without the incomplete word at the end. -/
theorem flatMap_ofNat_words (hn : n ≠ 0) (bs : Bytes) :
    (words n bs).flatMap (ofNat n) = bs.take (bs.length - bs.length % n) := by
  induction bs using words_induction hn with
  | short bs hlt =>
    rw [words_of_lt hlt, Nat.mod_eq_of_lt hlt, Nat.sub_self, List.take_zero, List.flatMap_nil]
  | word w bs hw ih =>
    have hlength : (w ++ bs).length - (w ++ bs).length % n =
        w.length + (bs.length - bs.length % n) := by
      rw [List.length_append, hw, Nat.add_mod_left, Nat.add_sub_assoc (Nat.mod_le _ n)]
    have hword : ofNat n (toNat w) = w := hw ▸ ofNat_toNat w
    rw [words_append hn hw, List.flatMap_cons, ih, hlength, List.take_length_add_append, hword]

/-! ### Floating values -/

section Floating

variable {f : FloatFormat}

theorem word_lt (x : Floating f) : x.word < twoPow f.width := x.bits.isLt

/-- A value is its word. -/
theorem ofWord_word (x : Floating f) : Floating.ofWord x.word = x := by
  obtain ⟨x⟩ := x
  exact congrArg _ ((BitVec.ofNat_toNat _ x).trans (BitVec.setWidth_eq x))

theorem word_ofWord {w : Nat} (hw : w < twoPow f.width) :
    (Floating.ofWord w : Floating f).word = w :=
  (BitVec.toNat_ofNat w _).trans (Nat.mod_eq_of_lt hw)

/-- **Floating values are read back** from the bytes of their words, bit for bit. -/
theorem map_ofWord_words (hn : n ≠ 0) (hwidth : f.width = 8 * n) (xs : List (Floating f)) :
    (words n (xs.flatMap fun x => ofNat n x.word)).map Floating.ofWord = xs := by
  rw [words_flatMap_word hn fun x => hwidth ▸ word_lt x, List.map_map]
  exact (List.map_congr_left fun x _ => ofWord_word x).trans (List.map_id xs)

end Floating

theorem length_ofSingles (xs : List Single) : (ofSingles xs).length = 4 * xs.length :=
  length_flatMap_word 4 Floating.word xs

theorem ofSingles_append (xs ys : List Single) :
    ofSingles (xs ++ ys) = ofSingles xs ++ ofSingles ys := List.flatMap_append

theorem flatMap_ofSingles (xss : List (List Single)) :
    xss.flatMap ofSingles = ofSingles xss.flatten := by
  induction xss with
  | nil => rfl
  | cons xs xss ih => rw [List.flatMap_cons, ih, List.flatten_cons, ofSingles_append]

/-- **Decoding undoes encoding.** -/
theorem data_ofSingleBytes_ofSingles (dims : List Nat) (xs : List Single) :
    (Tensor.ofSingleBytes dims (ofSingles xs)).data = xs :=
  map_ofWord_words (by decide) rfl xs

/-- **The bytes of values determine the values**, bit for bit. -/
theorem ofSingles_injective {xs ys : List Single} (h : ofSingles xs = ofSingles ys) : xs = ys := by
  rw [← data_ofSingleBytes_ofSingles [] xs, h, data_ofSingleBytes_ofSingles]

/-- **Encoding undoes decoding**, but for an incomplete value at the end. -/
theorem ofSingles_data_ofSingleBytes (dims : List Nat) (bs : Bytes) :
    ofSingles (Tensor.ofSingleBytes dims bs).data = bs.take (bs.length - bs.length % 4) := by
  have hword : ∀ w ∈ words 4 bs, ofNat 4 (Floating.ofWord w : Single).word = ofNat 4 w :=
    fun w hw => congrArg _ (word_ofWord (lt_of_mem_words (by decide) hw))
  calc ofSingles (Tensor.ofSingleBytes dims bs).data
      = (words 4 bs).flatMap fun w => ofNat 4 (Floating.ofWord w : Single).word :=
        List.flatMap_map _ _ _
    _ = (words 4 bs).flatMap (ofNat 4) := List.flatMap_congr hword
    _ = bs.take (bs.length - bs.length % 4) := flatMap_ofNat_words (by decide) bs

end Bytes

end LayerGraph
