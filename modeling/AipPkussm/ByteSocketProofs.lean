import Mathlib.Data.List.Basic
import AipPkussm.LittleEndianProofs

/-! # The reading side of a connection

    A connection is the bytes that will still arrive before the end of the
    stream, and how the operating system serves each `recv`: it fails, or it
    returns up to so many bytes (never none while there are any), or all that
    was asked for.  Which of these happens at which call is a DELIVERY; `whole`
    never splits anything.

    A delivery that serves every request of a list in full (`Covers`) cannot be
    told from `whole` by a reader that makes these requests
    (`recv_of_covers`). -/

namespace ByteSocket

open LittleEndian

/-- How one `recv` is served. -/
inductive Reply where
  | error
  | upTo (k : Nat)
  | all
  deriving DecidableEq

/-- How each `recv` on a connection is served. -/
abbrev Delivery := Nat → Reply

/-- The bytes still to come, and how many times `recv` was called. -/
@[ext] structure Socket where
  input : List Byte
  calls : Nat
  deriving DecidableEq

/-- Nothing is split. -/
def whole : Delivery := fun _ => .all

/-- The `n`-th `recv` returns at most `cuts n` bytes, and at least one while there
    are any. -/
def split (cuts : Nat → Nat) : Delivery := fun n => .upTo (cuts n)

/-- `recv` with a buffer of `req` bytes: the bytes it returns, none at the end of
    the stream, or no list where it returns -1. -/
def recv (d : Delivery) (s : Socket) (req : Nat) : Option (List Byte) × Socket :=
  match d s.calls with
  | .error => (none, { s with calls := s.calls + 1 })
  | .upTo k =>
      (some (s.input.take (min (max 1 k) req)),
        { input := s.input.drop (min (max 1 k) req), calls := s.calls + 1 })
  | .all =>
      (some (s.input.take req), { input := s.input.drop req, calls := s.calls + 1 })

/-- The reply serves a request of `req` bytes in full. -/
def Reply.covers : Reply → Nat → Prop
  | .error, _ => False
  | .upTo k, req => req ≤ max 1 k
  | .all, _ => True

/-- From the `n`-th `recv` on, the requests of the list are served in full. -/
def Covers (d : Delivery) : Nat → List Nat → Prop
  | _, [] => True
  | n, req :: reqs => (d n).covers req ∧ Covers d (n + 1) reqs

theorem covers_append (d : Delivery) (n : Nat) (a b : List Nat) :
    Covers d n (a ++ b) ↔ Covers d n a ∧ Covers d (n + a.length) b := by
  induction a generalizing n with
  | nil => exact ⟨fun h => ⟨trivial, h⟩, fun h => h.2⟩
  | cons req a ih =>
      show ((d n).covers req ∧ Covers d (n + 1) (a ++ b)) ↔ _
      rw [ih (n + 1), ← and_assoc, show n + 1 + a.length = n + (a.length + 1) by omega]
      exact Iff.rfl

/-- What a `recv` that is served in full does. -/
theorem recv_whole (s : Socket) (req : Nat) :
    recv whole s req
      = (some (s.input.take req), { input := s.input.drop req, calls := s.calls + 1 }) :=
  rfl

/-- **NO DIFFERENCE**: a covered request is served as if nothing was ever split. -/
theorem recv_of_covers {d : Delivery} {s : Socket} {req : Nat}
    (h : (d s.calls).covers req) : recv d s req = recv whole s req := by
  rw [recv_whole, recv]
  cases hd : d s.calls with
  | error =>
      rw [hd] at h
      exact h.elim
  | upTo k =>
      rw [hd] at h
      have hmin : min (max 1 k) req = req := Nat.min_eq_right h
      show (some (s.input.take (min (max 1 k) req)), Socket.mk _ _) = _
      rw [hmin]
  | all => rfl

/-- At the end of the stream every delivery does the same. -/
theorem recv_split_nil (cuts : Nat → Nat) {s : Socket} (h : s.input = []) (req : Nat) :
    recv (split cuts) s req = recv whole s req := by
  rw [recv_whole]
  show (some (s.input.take _), Socket.mk (s.input.drop _) _) = _
  rw [h, List.take_nil, List.drop_nil, List.take_nil, List.drop_nil]

/-- A reply that serves a request in full serves smaller ones too. -/
theorem covers_mono {r : Reply} {m n : Nat} (hmn : m ≤ n) (h : r.covers n) :
    r.covers m := by
  cases r with
  | error => exact h
  | upTo k => exact Nat.le_trans hmn h
  | all => trivial

/-- **WHAT ONE `recv` DOES** on a connection that does not fail: it takes bytes off
    the front, at most as many as were asked for and none only at the end of the
    stream; it would have covered a request for as many as it took, and it took as
    many as it covers. -/
theorem recv_split (cuts : Nat → Nat) (s : Socket) (req : Nat) :
    ∃ got rest, recv (split cuts) s req = (some got, ⟨rest, s.calls + 1⟩)
      ∧ s.input = got ++ rest ∧ got.length ≤ req
      ∧ (split cuts s.calls).covers got.length
      ∧ (0 < req → s.input ≠ [] → got ≠ [])
      ∧ ∀ m, m ≤ req → m ≤ s.input.length → (split cuts s.calls).covers m →
          m ≤ got.length := by
  refine ⟨_, _, rfl, (List.take_append_drop _ _).symm, ?_, ?_, ?_, ?_⟩
  · rw [List.length_take]
    omega
  · rw [List.length_take]
    show min (min (max 1 (cuts s.calls)) req) s.input.length ≤ max 1 (cuts s.calls)
    omega
  · intro hreq hne hnil
    have hpos : 0 < s.input.length := List.length_pos_of_ne_nil hne
    have hlen := congrArg List.length hnil
    rw [List.length_take, List.length_nil] at hlen
    omega
  · intro m hreq hlen hm
    have hk : m ≤ max 1 (cuts s.calls) := hm
    rw [List.length_take]
    omega

/-- A `recv` moves the bytes it returns, and nothing else. -/
theorem recv_input {d : Delivery} {s s' : Socket} {req : Nat} {got : List Byte}
    (h : recv d s req = (some got, s')) : s.input = got ++ s'.input := by
  rw [recv] at h
  cases hd : d s.calls with
  | error =>
      rw [hd] at h
      exact nomatch h
  | upTo k =>
      rw [hd] at h
      obtain ⟨hgot, rfl⟩ := Prod.mk.inj h
      obtain rfl := Option.some.inj hgot
      exact (List.take_append_drop _ _).symm
  | all =>
      rw [hd] at h
      obtain ⟨hgot, rfl⟩ := Prod.mk.inj h
      obtain rfl := Option.some.inj hgot
      exact (List.take_append_drop _ _).symm

theorem recv_calls (d : Delivery) (s : Socket) (req : Nat) :
    (recv d s req).2.calls = s.calls + 1 := by
  rw [recv]
  cases d s.calls <;> rfl

theorem recv_length_le (d : Delivery) (s : Socket) (req : Nat) :
    (recv d s req).2.input.length ≤ s.input.length := by
  rw [recv]
  cases d s.calls with
  | error => exact Nat.le_refl _
  | upTo k =>
      show (s.input.drop _).length ≤ _
      rw [List.length_drop]
      omega
  | all =>
      show (s.input.drop _).length ≤ _
      rw [List.length_drop]
      omega

/-! ## What a reader has spent -/

/-- Between two states a reader made the given requests.  It has taken at most as
    many bytes as they add up to, and if it has taken that many then all of them
    were served in full. -/
structure Spent (cuts : Nat → Nat) (s s' : Socket) (reqs : List Nat) : Prop where
  calls : s'.calls = s.calls + reqs.length
  le : s.input.length ≤ s'.input.length + reqs.sum
  covers : s.input.length = s'.input.length + reqs.sum →
    Covers (split cuts) s.calls reqs

theorem Spent.nil (cuts : Nat → Nat) (s : Socket) : Spent cuts s s [] where
  calls := rfl
  le := Nat.le_refl _
  covers := fun _ => trivial

/-- One request after another. -/
theorem Spent.append {cuts : Nat → Nat} {s s' s'' : Socket} {a b : List Nat}
    (h : Spent cuts s s' a) (h' : Spent cuts s' s'' b) : Spent cuts s s'' (a ++ b) where
  calls := by
    rw [h'.calls, h.calls, List.length_append]
    omega
  le := by
    have h₁ := h.le
    have h₂ := h'.le
    rw [List.sum_append]
    omega
  covers := by
    intro heq
    have h₁ := h.le
    have h₂ := h'.le
    rw [List.sum_append] at heq
    rw [covers_append]
    refine ⟨h.covers (by omega), ?_⟩
    rw [← h.calls]
    exact h'.covers (by omega)

/-- One `recv`. -/
theorem recv_spent (cuts : Nat → Nat) (s : Socket) (req : Nat) :
    ∃ got rest, recv (split cuts) s req = (some got, ⟨rest, s.calls + 1⟩)
      ∧ got.length ≤ req ∧ (0 < req → s.input ≠ [] → got ≠ [])
      ∧ Spent cuts s ⟨rest, s.calls + 1⟩ [req] := by
  obtain ⟨got, rest, hrecv, hin, hle, hcov, hne, -⟩ := recv_split cuts s req
  have hlen : s.input.length = got.length + rest.length := by
    rw [hin, List.length_append]
  refine ⟨got, rest, hrecv, hle, hne, rfl, ?_, ?_⟩
  · show s.input.length ≤ rest.length + [req].sum
    rw [List.sum_singleton]
    omega
  · intro heq
    have heq' : s.input.length = rest.length + [req].sum := heq
    rw [List.sum_singleton] at heq'
    exact ⟨covers_mono (by omega) hcov, trivial⟩

end ByteSocket
