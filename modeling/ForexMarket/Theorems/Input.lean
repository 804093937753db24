import ForexMarket.Model.Client

/- `SafeIntInput` on a finite input. A round that does not end it loses the line it read in,
   so the loop ends at the first line that begins with an acceptable integer; at the end
   of the input nothing is left to lose, every further extraction fails, and the loop goes
   on for ever. -/
namespace ForexMarket

namespace Client

/-- One of the lines still to be read begins, after blanks, with this `int`. -/
def Entered (cin : Istream) (n : Int) : Prop := cin.Offers (-2 ^ 31) (2 ^ 31 - 1) n

variable {predicate : Int → Bool} {cin cin' : Istream} {fuel : Nat} {var n : Int}

/-- The loop ends with an acceptable integer that is read next. -/
theorem safeIntInput_stop (fuel : Nat) (h : cin.peek (-2 ^ 31) (2 ^ 31 - 1) = some n)
    (hp : predicate n = true) :
    safeIntInput predicate (fuel + 1) cin var =
      some (n, (cin.extract (-2 ^ 31) (2 ^ 31 - 1) var).1) := by
  obtain ⟨hfail, hvar⟩ := Istream.extract_of_some h var
  simp only [safeIntInput, hfail, hvar, hp, Bool.not_true, Bool.or_self, Bool.false_eq_true,
    if_false]

/-- Otherwise it goes on with the lines after it. -/
theorem safeIntInput_next (fuel : Nat)
    (h : ∀ n, cin.peek (-2 ^ 31) (2 ^ 31 - 1) = some n → predicate n = false) :
    safeIntInput predicate (fuel + 1) cin var =
      safeIntInput predicate fuel (cin.next (-2 ^ 31) (2 ^ 31 - 1) var)
        (cin.extract (-2 ^ 31) (2 ^ 31 - 1) var).2 := by
  have hagain : ((cin.extract (-2 ^ 31) (2 ^ 31 - 1) var).1.failbit ||
      !predicate (cin.extract (-2 ^ 31) (2 ^ 31 - 1) var).2) = true := by
    cases hpeek : cin.peek (-2 ^ 31) (2 ^ 31 - 1) with
    | none => rw [Istream.extract_of_none hpeek var, Bool.true_or]
    | some n => rw [(Istream.extract_of_some hpeek var).2, h n hpeek, Bool.not_false, Bool.or_true]
  simp only [safeIntInput, hagain, if_true, Istream.next]

/-- A value the loop ends with was read from a line, and is acceptable. -/
theorem safeIntInput_sound (h : safeIntInput predicate fuel cin var = some (n, cin')) :
    Entered cin n ∧ predicate n = true := by
  induction fuel generalizing cin var with
  | zero => cases h
  | succ fuel ih =>
    by_cases hstop : ∃ m, cin.peek (-2 ^ 31) (2 ^ 31 - 1) = some m ∧ predicate m = true
    · obtain ⟨m, hpeek, hp⟩ := hstop
      rw [safeIntInput_stop fuel hpeek hp] at h
      obtain ⟨rfl, -⟩ := Prod.mk.inj (Option.some.inj h)
      exact ⟨(Istream.offers_iff cin var).mpr (.inl hpeek), hp⟩
    · rw [safeIntInput_next fuel fun m hm => by
        simpa using fun hp => hstop ⟨m, hm, hp⟩] at h
      obtain ⟨hentered, hp⟩ := ih h
      exact ⟨(Istream.offers_iff cin var).mpr (.inr hentered), hp⟩

/-- With an acceptable integer at the start of a line the loop ends, by induction on what is left
of the input. -/
theorem safeIntInput_ends (h : Entered cin n) (hp : predicate n = true) (var : Int) :
    ∃ fuel, (safeIntInput predicate fuel cin var).isSome := by
  generalize hlen : cin.rest.length = len
  induction len using Nat.strong_induction_on generalizing cin var with
  | _ len ih =>
    by_cases hstop : ∃ m, cin.peek (-2 ^ 31) (2 ^ 31 - 1) = some m ∧ predicate m = true
    · obtain ⟨m, hpeek, hm⟩ := hstop
      exact ⟨1, by rw [safeIntInput_stop 0 hpeek hm]; rfl⟩
    · have hlater : Entered (cin.next (-2 ^ 31) (2 ^ 31 - 1) var) n := by
        rcases (Istream.offers_iff cin var).mp h with hpeek | hlater
        · exact absurd ⟨n, hpeek, hp⟩ hstop
        · exact hlater
      have hne : cin.rest ≠ [] := fun hnil => Istream.not_offers_of_nil hnil h
      have hlt : (cin.next (-2 ^ 31) (2 ^ 31 - 1) var).rest.length < cin.rest.length :=
        Istream.length_next_lt hne var
      obtain ⟨fuel, hfuel⟩ := ih _ (hlen ▸ hlt) hlater _ rfl
      refine ⟨fuel + 1, ?_⟩
      rw [safeIntInput_next fuel fun m hm => by simpa using fun hp => hstop ⟨m, hm, hp⟩]
      exact hfuel

/-- The loop ends, and a value it ends with was read from the input and is acceptable. -/
def EndsSafely (predicate : Int → Bool) (cin : Istream) (var : Int) : Prop :=
  (∃ fuel, (safeIntInput predicate fuel cin var).isSome) ∧
    ∀ fuel n cin', safeIntInput predicate fuel cin var = some (n, cin') →
      Entered cin n ∧ predicate n = true

/-- The loop ends exactly when a line still to be read begins with an acceptable integer. -/
theorem safeIntInput_ends_iff (predicate : Int → Bool) (cin : Istream) (var : Int) :
    EndsSafely predicate cin var ↔ ∃ n, Entered cin n ∧ predicate n = true := by
  constructor
  · rintro ⟨⟨fuel, hsome⟩, hsound⟩
    obtain ⟨result, hresult⟩ := Option.isSome_iff_exists.mp hsome
    exact ⟨result.1, hsound fuel result.1 result.2 hresult⟩
  · rintro ⟨n, hentered, hp⟩
    exact ⟨safeIntInput_ends hentered hp var, fun _ _ _ h => safeIntInput_sound h⟩

/-- At the end of the input the choice between registration and login is asked for again and
again. -/
theorem safeIntInput_goes_on : ¬ EndsSafely (fun var => var = 1 ∨ var = 2) (.of []) 0 := by
  rintro ⟨⟨fuel, hsome⟩, -⟩
  obtain ⟨result, hresult⟩ := Option.isSome_iff_exists.mp hsome
  exact Istream.not_offers_of_nil rfl (safeIntInput_sound hresult).1

/-- A word, a number that is not an `int`, one that is refused, and one that is accepted. -/
example : (safeIntInput (fun var => var = 1 ∨ var = 2) 4
    (.of (text "login\n 99999999999\n3\n\n2")) 0).map Prod.fst = some 2 := by decide

end Client

end ForexMarket
