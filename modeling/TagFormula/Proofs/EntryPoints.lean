import Mathlib.Data.List.TakeWhile
import TagFormula.Context
import TagFormula.Entry

/-!
The three ways to call a computation. A value conversion catches a failed conversion, returns its message and
has it raised again at the boundary; the other two let it pass. Main statement: the caller cannot tell which
way was taken, but for the 1 or 0 of a condition, and gets either a value or a message.
-/

namespace TagFormula

/-! ### Messages -/

namespace Text

@[simp] theorem upToZero_upToZero (t : Text) : t.upToZero.upToZero = t.upToZero := List.takeWhile_idem ..

theorem zero_notMem_upToZero (t : Text) : 0 ∉ t.upToZero := by
  intro h
  have hne := List.mem_takeWhile_imp (p := (· != 0)) h
  exact absurd hne (by decide)

/-- What a reader sees of a text with a zero byte behind it. -/
theorem upToZero_append_zero {t : Text} (h : 0 ∉ t) (rest : Text) : (t ++ 0 :: rest).upToZero = t := by
  have hall : ∀ b ∈ t, (b != 0) = true := fun b hb => bne_iff_ne.2 fun heq => h (heq ▸ hb)
  rw [upToZero, List.takeWhile_append_of_pos hall, List.takeWhile_cons_of_neg (by decide), List.append_nil]

end Text

namespace Entry

/-- The buffer `after` holds a message that was written over `before`: up to its first zero byte, cut to one
byte less than the buffer, and a zero byte behind it. -/
structure Shows (message before after : Text) : Prop where
  size : after.length = before.length
  terminated : ∃ rest, after = message.upToZero.take (before.length - 1) ++ 0 :: rest
  read : after.upToZero = message.upToZero.take (before.length - 1)

theorem shows_writeMessage (message : Text) {buffer : Text} (h : buffer ≠ []) :
    Shows message buffer (writeMessage message buffer) := by
  cases buffer with
  | nil => exact absurd rfl h
  | cons b buffer =>
    -- of the `buffer.length + 1` places at least one is left for a zero byte
    have hfits : (message.upToZero.take buffer.length).length ≤ buffer.length := List.length_take_le ..
    obtain ⟨k, hk⟩ : ∃ k, buffer.length + 1 - (message.upToZero.take buffer.length).length = k + 1 :=
      ⟨buffer.length - (message.upToZero.take buffer.length).length, by omega⟩
    have hwritten : writeMessage message (b :: buffer)
        = message.upToZero.take buffer.length ++ 0 :: List.replicate k 0 := by
      simp only [writeMessage, List.length_cons, hk, List.replicate_succ]
    have hzero : 0 ∉ message.upToZero.take buffer.length :=
      fun hmem => Text.zero_notMem_upToZero message (List.mem_of_mem_take hmem)
    refine ⟨?_, ⟨_, hwritten⟩, ?_⟩
    · rw [hwritten, List.length_append, List.length_cons, List.length_replicate, List.length_cons]
      omega
    · rw [hwritten]
      exact Text.upToZero_append_zero hzero _

/-- A message that was cut at its first zero byte is written like the whole one. -/
theorem writeMessage_upToZero (message buffer : Text) :
    writeMessage message.upToZero buffer = writeMessage message buffer := by
  rw [writeMessage, writeMessage, Text.upToZero_upToZero]

theorem Status.ofKind_ne_ok (kind : ExceptionKind) : Status.ofKind kind ≠ .ok := by
  cases kind <;> decide

/-! ### Ways to call -/

/-- What a caller receives of a value. -/
def received : Role → Value → Value
  | .condition, v => .integer (if v.truthy then 1 else 0)
  | .valueConv, v | .printConv, v => v

section Call

variable (hasPlace : Bool) (buffer : Text) (body : Except Exception Value)

/-- The message of a failed conversion reaches the caller as if nobody had caught it. -/
theorem valueConv_asValueConv :
    valueConv hasPlace buffer (asValueConv body) = run hasPlace buffer body := by
  cases hasPlace with
  | false => rfl
  | true =>
    cases body with
    | ok v => rfl
    | error e =>
      obtain ⟨kind, message⟩ := e
      cases kind with
      | conversion =>
        -- the message is cut when it is caught and once more when it is written
        calc valueConv true buffer (asValueConv (.error ⟨.conversion, message⟩))
            = ⟨.conversionFailed, none, writeMessage message.upToZero buffer⟩ := rfl
          _ = ⟨.conversionFailed, none, writeMessage message buffer⟩ := by rw [writeMessage_upToZero]
      | type => rfl
      | other => rfl

/-- In every role a computation is called as it is, and only its value is seen differently. -/
theorem call_eq_run (role : Role) :
    call role hasPlace buffer body = run hasPlace buffer (body.map (received role)) := by
  cases role with
  | valueConv => exact (valueConv_asValueConv hasPlace buffer body).trans (by cases body <;> rfl)
  | printConv => cases body <;> rfl
  | condition => cases body <;> rfl

theorem run_map (view : Value → Value) :
    run hasPlace buffer (body.map view)
      = { run hasPlace buffer body with value := (run hasPlace buffer body).value.map view } := by
  cases hasPlace with
  | false => rfl
  | true => cases body <;> rfl

/-- An answer to a caller with a place for the value: a value, or a message that says why there is none. -/
structure Reports (view : Value → Value) (answer : Answer) : Prop where
  value_iff : answer.value.isSome ↔ answer.status = .ok
  value : ∀ v, body = .ok v → answer.value = some (view v)
  unchanged : answer.status = .ok → answer.buffer = buffer
  message : answer.status ≠ .ok →
    ∃ e, body = .error e ∧ answer.status = .ofKind e.kind ∧
      (buffer ≠ [] → Shows e.message buffer answer.buffer)

theorem reports_run_map (view : Value → Value) :
    Reports buffer body view (run true buffer (body.map view)) := by
  cases body with
  | ok v =>
    refine ⟨⟨fun _ => rfl, fun _ => rfl⟩, ?_, fun _ => rfl, fun h => absurd rfl h⟩
    rintro v' ⟨⟩
    rfl
  | error e =>
    have hfailed : Status.ofKind e.kind ≠ .ok := Status.ofKind_ne_ok e.kind
    exact ⟨⟨fun h => absurd h Bool.false_ne_true, fun h => absurd h hfailed⟩, by rintro v ⟨⟩,
      fun h => absurd h hfailed, fun _ => ⟨e, rfl, rfl, shows_writeMessage e.message⟩⟩

end Call

/-- Value conversions and conversions for printing answer alike, conditions with the truth of the same value;
every role reports. -/
theorem roles_answer_alike (body : Value → Context → Except Exception Value) (input : Value) (context : Context)
    (hasPlace : Bool) (buffer : Text) :
    valueConv hasPlace buffer (asValueConv (body input context))
        = printConv hasPlace buffer (body input context) ∧
    condition hasPlace buffer (asCondition (body input context))
        = { printConv hasPlace buffer (body input context) with
            value := (printConv hasPlace buffer (body input context)).value.map
              fun v => .integer (if v.truthy then 1 else 0) } ∧
    ∀ role, Reports buffer (body input context) (received role)
      (call role true buffer (body input context)) := by
  refine ⟨valueConv_asValueConv .., ?_, fun role => ?_⟩
  · exact (call_eq_run hasPlace buffer (body input context) .condition).trans (run_map ..)
  · rw [call_eq_run]
    exact reports_run_map ..

end Entry
end TagFormula
