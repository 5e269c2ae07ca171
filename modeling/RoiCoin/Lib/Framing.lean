import Mathlib.Data.List.Basic

/-! Messages framed by a header of fixed size that says how long the payload is, read one byte
after the other. -/

universe u v

namespace Framing

variable {β : Type u} {H : Type v}

structure Format (β : Type u) (H : Type v) where
  headerSize : Nat
  parse : List β → H
  payloadSize : H → Nat
  accepts : H → Bool

/-- What was read of a message that is not complete; a header without bytes is none. -/
inductive Unfinished (β : Type u) (H : Type v) where
  | header (bytes : List β)
  | payload (h : H) (bytes : List β)

structure Frames (β : Type u) (H : Type v) where
  complete : List (H × List β)
  unfinished : Unfinished β H
  refused : Bool

variable (format : Format β H)

/-- The message when so much of its payload was read. -/
def deliver (complete : List (H × List β)) (h : H) (bytes : List β) : Frames β H :=
  if bytes.length = format.payloadSize h then ⟨complete ++ [(h, bytes)], .header [], false⟩
  else ⟨complete, .payload h bytes, false⟩

/-- The message after the last byte of its header. -/
def enter (complete : List (H × List β)) (bytes : List β) : Frames β H :=
  if format.accepts (format.parse bytes) then deliver format complete (format.parse bytes) []
  else ⟨complete, .payload (format.parse bytes) [], true⟩

/-- Nothing is read after a header was refused. -/
def step (frames : Frames β H) (byte : β) : Frames β H :=
  if frames.refused then frames
  else
    match frames.unfinished with
    | .header bytes =>
        if bytes.length + 1 < format.headerSize then
          { frames with unfinished := .header (bytes ++ [byte]) }
        else enter format frames.complete (bytes ++ [byte])
    | .payload h bytes => deliver format frames.complete h (bytes ++ [byte])

def feed (frames : Frames β H) (bytes : List β) : Frames β H := bytes.foldl (step format) frames

@[simp] theorem feed_nil (frames : Frames β H) : feed format frames [] = frames := rfl

theorem feed_cons (frames : Frames β H) (byte : β) (bytes : List β) :
    feed format frames (byte :: bytes) = feed format (step format frames byte) bytes := rfl

/-- Where the bytes are cut makes no difference. -/
theorem feed_append (frames : Frames β H) (front back : List β) :
    feed format frames (front ++ back) = feed format (feed format frames front) back :=
  List.foldl_append

theorem feed_refused (frames : Frames β H) (bytes : List β) (refused : frames.refused = true) :
    feed format frames bytes = frames := by
  induction bytes with
  | nil => rfl
  | cons byte bytes ih => rw [feed_cons, step, if_pos refused, ih]

theorem feed_header (complete : List (H × List β)) (front bytes : List β)
    (short : front.length + bytes.length < format.headerSize) :
    feed format ⟨complete, .header front, false⟩ bytes =
      ⟨complete, .header (front ++ bytes), false⟩ := by
  induction bytes generalizing front with
  | nil => simp
  | cons byte bytes ih =>
      rw [List.length_cons] at short
      have shorter : (front ++ [byte]).length + bytes.length < format.headerSize := by
        rw [List.length_append, List.length_singleton]
        omega
      have one : front.length + 1 < format.headerSize := by omega
      simp only [feed_cons, step, Bool.false_eq_true, if_false, if_pos one]
      rw [ih (front ++ [byte]) shorter, List.append_assoc, List.singleton_append]

theorem feed_whole_header (complete : List (H × List β)) (front bytes : List β)
    (some : bytes ≠ []) (whole : front.length + bytes.length = format.headerSize) :
    feed format ⟨complete, .header front, false⟩ bytes =
      enter format complete (front ++ bytes) := by
  obtain ⟨body, last, split⟩ : ∃ body last, bytes = body ++ [last] :=
    ⟨_, _, (List.dropLast_append_getLast some).symm⟩
  subst split
  rw [List.length_append, List.length_singleton] at whole
  have full : ¬ (front ++ body).length + 1 < format.headerSize := by
    rw [List.length_append]
    omega
  rw [feed_append, feed_header format complete front body (by omega)]
  simp only [feed_cons, feed_nil, step, Bool.false_eq_true, if_false, if_neg full,
    List.append_assoc]

theorem feed_payload (complete : List (H × List β)) (h : H) (front bytes : List β)
    (some : bytes ≠ []) (inside : front.length + bytes.length ≤ format.payloadSize h) :
    feed format ⟨complete, .payload h front, false⟩ bytes =
      deliver format complete h (front ++ bytes) := by
  induction bytes generalizing front with
  | nil => exact absurd rfl some
  | cons byte bytes ih =>
      rw [List.length_cons] at inside
      simp only [feed_cons, step, Bool.false_eq_true, if_false]
      by_cases last : bytes = []
      · subst last
        rfl
      · have positive := List.length_pos_of_ne_nil last
        have length : (front ++ [byte]).length = front.length + 1 := by simp
        have short : ¬ (front ++ [byte]).length = format.payloadSize h := by omega
        rw [deliver, if_neg short, ih (front ++ [byte]) last (by omega), List.append_assoc,
          List.singleton_append]

end Framing
