import Mathlib
import Aleatory.Proofs.Recipe.Words

/-!
# Requests along the words of a state

A source of random numbers over a state is asked for halves of words, for words and for bytes, one
request after the other. A request takes whole words, the next ones of the state, and what it
leaves of the last of them is lost. So the reply to a request depends only on where the words of
the requests before it end (`requests_read_words`).
-/

namespace Aleatory

open Generator

/-- What a source of random numbers can be asked for. -/
inductive Request where
  | half
  | word
  | fill (count : ℕ)
  | tryFill (count : ℕ)
  deriving DecidableEq, Repr

/-- The reply to a request. A request that may be refused replies with an error of type `ε` if it
is. -/
inductive Reply (ε : Type) where
  | half (bits : UInt32)
  | word (bits : UInt64)
  | filled (bytes : List UInt8)
  | tried (answer : Except ε (List UInt8))

namespace Request

/-- The number of words that a request takes. -/
def cost : Request → ℕ
  | half => 1
  | word => 1
  | fill count => count ⌈/⌉ 8
  | tryFill count => count ⌈/⌉ 8

/-- The reply that is read off a stream of words. -/
def reading (ε : Type) : Request → Stream' UInt64 → Reply ε
  | half, s => .half (s.head >>> 32).toUInt32
  | word, s => .word s.head
  | fill count, s => .filled (leadingBytes count s)
  | tryFill count, s => .tried (.ok (leadingBytes count s))

variable {σ : Type} [Generator σ]

/-- A request made on a state. -/
def reply (ε : Type) : Request → Draws σ (Reply ε)
  | half => return .half (← Draws.half)
  | word => return .word (← Draws.word)
  | fill count => return .filled (← Draws.bytes count)
  | tryFill count => return .tried (← Draws.tryBytes ε count)

/-- Requests made on a state in order. -/
def replies (ε : Type) : List Request → Draws σ (List (Reply ε))
  | [] => return []
  | r :: rest => return (← r.reply ε) :: (← replies ε rest)

theorem reply_eq (ε : Type) (r : Request) (state : σ) :
    r.reply ε state =
      ⟨.replicate r.cost .draw, .ok (r.reading ε (words state), advance r.cost state)⟩ := by
  have hbytes (count : ℕ) : Draws.bytes count state = ⟨.replicate (count ⌈/⌉ 8) .draw,
      .ok (leadingBytes count (words state), advance (count ⌈/⌉ 8) state)⟩ := by
    rw [Draws.bytes_eq, Nat.ceilDiv_eq_add_pred_div]
    rfl
  cases r with
  | half => rfl
  | word => rfl
  | fill count => exact Draws.bind_eq (m := 0) (hbytes count) rfl
  | tryFill count =>
      have htried : Draws.tryBytes ε count state = ⟨.replicate (count ⌈/⌉ 8) .draw,
          .ok (.ok (leadingBytes count (words state)), advance (count ⌈/⌉ 8) state)⟩ :=
        Draws.bind_eq (m := 0) (hbytes count) rfl
      exact Draws.bind_eq (m := 0) htried rfl

/-- The number of words that requests take together. -/
def totalCost (requests : List Request) : ℕ := (requests.map cost).sum

/-- The replies that are read off a stream, each behind the words of the requests before it. -/
def readings (ε : Type) : List Request → Stream' UInt64 → List (Reply ε)
  | [], _ => []
  | r :: rest, s => r.reading ε s :: readings ε rest (s.drop r.cost)

theorem replies_eq (ε : Type) (requests : List Request) (state : σ) :
    replies ε requests state = ⟨.replicate (totalCost requests) .draw,
      .ok (readings ε requests (words state), advance (totalCost requests) state)⟩ := by
  induction requests generalizing state with
  | nil => rfl
  | cons r rest ih =>
      have hrest := ih (advance r.cost state)
      rw [← drop_words] at hrest
      rw [totalCost, List.map_cons, List.sum_cons]
      exact Draws.bind_eq (reply_eq ε r state) (Draws.bind_eq (m := 0) hrest rfl)

theorem length_readings (ε : Type) (requests : List Request) (s : Stream' UInt64) :
    (readings ε requests s).length = requests.length := by
  induction requests generalizing s with
  | nil => rfl
  | cons r rest ih => rw [readings, List.length_cons, List.length_cons, ih]

theorem getElem?_readings (ε : Type) {requests : List Request} {i : ℕ} {r : Request}
    (h : requests[i]? = some r) (s : Stream' UInt64) :
    (readings ε requests s)[i]? =
      some (r.reading ε (s.drop (totalCost (requests.take i)))) := by
  induction requests generalizing i s with
  | nil => simp at h
  | cons first rest ih =>
      cases i with
      | zero =>
          cases h
          rfl
      | succ i =>
          rw [List.getElem?_cons_succ] at h
          rw [readings, List.getElem?_cons_succ, ih h, Stream'.drop_drop, List.take_succ_cons,
            totalCost, totalCost, List.map_cons, List.sum_cons]

end Request

/-- The bytes of a word are its digits to the base 256, the lowest first. -/
theorem ofDigits_wordBytes (bits : UInt64) :
    Nat.ofDigits 256 ((wordBytes bits).map UInt8.toNat) = bits.toNat := by
  have hrange : List.range 8 = [0, 1, 2, 3, 4, 5, 6, 7] := rfl
  simp only [wordBytes, hrange, List.map_cons, List.map_nil, Nat.ofDigits_cons, Nat.ofDigits_nil,
    UInt64.toNat_toUInt8, UInt64.toNat_shiftRight, Nat.shiftRight_eq_div_pow]
  have hbound := bits.toNat_lt_size
  norm_num [UInt64.size] at hbound ⊢
  omega

theorem leadingBytes_of_le {count : ℕ} (h : 8 ≤ count) (s : Stream' UInt64) :
    leadingBytes count s = wordBytes s.head ++ leadingBytes (count - 8) s.tail := by
  have hwhole : (wordBytes s.head).length ≤ count := by rwa [length_wordBytes]
  rw [leadingBytes_of_pos (by omega), List.take_of_length_le hwhole]

theorem leadingBytes_add {a : ℕ} (ha : 8 ∣ a) (b : ℕ) (s : Stream' UInt64) :
    leadingBytes (a + b) s = leadingBytes a s ++ leadingBytes b (s.drop ((a + 7) / 8)) := by
  obtain ⟨n, rfl⟩ := ha
  induction n generalizing s with
  | zero => simp [leadingBytes]
  | succ n ih =>
      have hfirst : 8 * (n + 1) - 8 = 8 * n := by omega
      have hboth : 8 * (n + 1) + b - 8 = 8 * n + b := by omega
      have hwords : (8 * (n + 1) + 7) / 8 = (8 * n + 7) / 8 + 1 := by omega
      have hsmall : 8 ≤ 8 * (n + 1) := by omega
      have hlarge : 8 ≤ 8 * (n + 1) + b := by omega
      rw [leadingBytes_of_le hlarge, leadingBytes_of_le hsmall, hfirst, hboth, ih, hwords,
        List.append_assoc]
      rfl

section

variable {σ : Type} [Generator σ]

/-- Bytes up to the end of a word and the bytes behind them are the same bytes asked for at once. -/
theorem Draws.bytes_add {a : ℕ} (ha : 8 ∣ a) (b : ℕ) :
    (do return (← bytes a) ++ (← bytes b)) = (bytes (a + b) : Draws σ (List UInt8)) := by
  funext state
  have hwords : (a + b + 7) / 8 = (a + 7) / 8 + (b + 7) / 8 := by omega
  have hsecond := bytes_eq b (advance ((a + 7) / 8) state)
  rw [← drop_words] at hsecond
  rw [bytes_eq, leadingBytes_add ha, hwords]
  exact bind_eq (bytes_eq a state) (bind_eq (m := 0) hsecond rfl)

/-- Requests take the words of a state one after the other. Halves and words take one word, bytes
take one for every eight bytes begun; nothing else is taken and nothing is split. Each reply is
read off the words behind those of the requests before it, the bytes with the lowest of each word
first, and the state at the end is behind all of them. -/
theorem requests_read_words (ε : Type) (state : σ) :
    (∀ requests : List Request, ∃ replies : List (Reply ε),
      Request.replies ε requests state = ⟨.replicate (Request.totalCost requests) .draw,
        .ok (replies, advance (Request.totalCost requests) state)⟩ ∧
      replies.length = requests.length ∧
      ∀ (i : ℕ) (r : Request), requests[i]? = some r → replies[i]? =
        some (r.reading ε ((words state).drop (Request.totalCost (requests.take i))))) ∧
    (∀ bits : UInt64, (wordBytes bits).length = 8 ∧
      Nat.ofDigits 256 ((wordBytes bits).map UInt8.toNat) = bits.toNat) ∧
    ∀ a b : ℕ, 8 ∣ a →
      (do return (← Draws.bytes a) ++ (← Draws.bytes b)) state = Draws.bytes (a + b) state := by
  refine ⟨fun requests => ⟨_, Request.replies_eq ε requests state,
    Request.length_readings ε requests _, fun i r h => Request.getElem?_readings ε h _⟩,
    fun bits => ⟨length_wordBytes bits, ofDigits_wordBytes bits⟩, fun a b ha => ?_⟩
  exact congrFun (Draws.bytes_add ha b) state

end

/-- Between requests for bytes that do not end with a word. -/
theorem requests_read_words_mixed :
    let s := SplitMix.ofSeed 6
    let requests : List Request := [.half, .fill 13, .tryFill 0, .word, .fill 8]
    Request.totalCost requests = 5 ∧ requests[3]? = some .word ∧
    (∃ replies : List (Reply String), replies[3]? = some (.word (nthWord 3 s)) ∧
      Request.replies String requests s = ⟨.replicate 5 .draw, .ok (replies, advance 5 s)⟩) ∧
    8 ∣ 16 ∧ (do return (← Draws.bytes 16) ++ (← Draws.bytes 5)) s = Draws.bytes 21 s := by
  intro s requests
  obtain ⟨hreplies, -, hbytes⟩ := requests_read_words String s
  obtain ⟨replies, hrun, -, hreply⟩ := hreplies requests
  exact ⟨by decide, rfl, ⟨replies, hreply 3 .word rfl, hrun⟩, by decide, hbytes 16 5 (by decide)⟩

end Aleatory
