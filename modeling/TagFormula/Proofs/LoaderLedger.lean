import Mathlib.Data.List.Infix
import Mathlib.Data.List.Perm.Subperm
import Mathlib.Logic.Relation
import TagFormula.Module.Loader

/-!
What passes between a loader and its linker over any sequence of calls. Main statement: whatever the linker
answers, no path is loaded twice; a path is loaded exactly if its last load succeeded and no unload came behind
it; symbols are found in loaded modules only; and every handle that was given out is closed once, no earlier.
-/

namespace TagFormula

/-- A question to the linker with its answer. -/
inductive Exchange (Handle : Type) where
  | opened (path : Text) (answer : Except Text Handle)
  | closed (handle : Handle) (answer : Except Text Unit)
  | searched (handle : Handle) (name : Text) (answer : Except Text Unit)

variable {Handle : Type}

namespace Exchange

/-- The handle that is given out. -/
def given? : Exchange Handle → Option Handle
  | .opened _ (.ok h) => some h
  | _ => none

/-- The handle that is to be closed, whatever comes of it. -/
def returned? : Exchange Handle → Option Handle
  | .closed h _ => some h
  | _ => none

end Exchange

/-- What has passed so far. -/
abbrev Record (Handle : Type) := List (Exchange Handle)

/-- The handles that were given out, in their order. -/
def Record.given (r : Record Handle) : List Handle := r.filterMap Exchange.given?

/-- The handles on which a close was called, in their order. -/
def Record.returned (r : Record Handle) : List Handle := r.filterMap Exchange.returned?

namespace Record

@[simp] theorem given_append (r s : Record Handle) : given (r ++ s) = r.given ++ given s :=
  List.filterMap_append ..

@[simp] theorem returned_append (r s : Record Handle) : returned (r ++ s) = r.returned ++ returned s :=
  List.filterMap_append ..

theorem given_concat (r : Record Handle) (x : Exchange Handle) :
    given (r ++ [x]) = r.given ++ x.given?.toList := by
  rw [given_append]
  cases hx : x.given? <;> simp [given, hx]

theorem returned_concat (r : Record Handle) (x : Exchange Handle) :
    returned (r ++ [x]) = r.returned ++ x.returned?.toList := by
  rw [returned_append]
  cases hx : x.returned? <;> simp [returned, hx]

/-- At no time were there more closes of a handle than the handle was given out. -/
def Covered (r : Record Handle) : Prop := ∀ past : Record Handle, past <+: r → past.returned.Subperm past.given

theorem Covered.concat {r : Record Handle} {x : Exchange Handle} (h : r.Covered) {out : List Handle}
    (hx : given (r ++ [x]) |>.Perm (returned (r ++ [x]) ++ out)) : Covered (r ++ [x]) := by
  intro past hpast
  rcases List.prefix_concat_iff.1 hpast with rfl | hpast
  · exact (List.sublist_append_left _ _).subperm.trans hx.symm.subperm
  · exact h past hpast

end Record

/-- What a linker answers. Every answer may depend on all that has passed, so that no sequence of successes
and failures is left out. -/
structure Answers (Handle : Type) where
  load : Record Handle → Text → Except Text Handle
  close : Record Handle → Handle → Except Text Unit
  symbol : Record Handle → Handle → Text → Except Text Unit

/-- The linker with these answers, which keeps the record. -/
def Answers.linker (a : Answers Handle) : Linker (StateM (Record Handle)) Handle where
  load path r := let answer := a.load r path; (answer, r ++ [.opened path answer])
  close h r := let answer := a.close r h; (answer, r ++ [.closed h answer])
  symbol h name r := let answer := a.symbol r h name; (answer, r ++ [.searched h name answer])

namespace Loader

/-! ### Calls -/

/-- What can be asked of a loader. -/
inductive Call where
  | load (path : Text)
  | unload (path : Text)
  | symbol (path name : Text)
  deriving DecidableEq

/-- Loads and unloads of a path decide whether it is loaded. -/
def Call.Concerns (path : Text) (c : Call) : Prop := c = .load path ∨ c = .unload path

section

variable {m : Type → Type} [Monad m]

/-- The loader after a call, and what the call returns. -/
def call (k : Linker m Handle) (l : Loader Handle) : Call → m (Loader Handle × Except Refusal Unit)
  | .load path => l.load k path
  | .unload path => l.unload k path
  | .symbol path name => return (l, ← l.symbol k path name)

end

/-- Calls with what they returned, in their order. -/
abbrev History := List (Call × Except Refusal Unit)

/-- The last load of a path succeeded, and no unload of it came behind that. -/
def Current (path : Text) (history : History) : Prop :=
  ∃ before after, history = before ++ (.load path, .ok ()) :: after ∧ ∀ x ∈ after, ¬x.1.Concerns path

/-- A loader with the calls that led to it. -/
structure Session (Handle : Type) where
  loader : Loader Handle
  history : History

section

variable {m : Type → Type} [Monad m]

def Session.call (k : Linker m Handle) (s : Session Handle) (c : Call) : m (Session Handle) := do
  let (l, answer) ← s.loader.call k c
  return ⟨l, s.history ++ [(c, answer)]⟩

/-- Calls one after the other on an empty loader. -/
def Session.run (k : Linker m Handle) (calls : List Call) : m (Session Handle) :=
  calls.foldlM (Session.call k) ⟨empty, []⟩

end

/-! ### Paths -/

/-- No two modules have the same path. -/
def Distinct (l : Loader Handle) : Prop := (l.modules.map (·.1)).Nodup

theorem isLoaded_iff {l : Loader Handle} {path : Text} :
    l.isLoaded path ↔ path ∈ l.modules.map (·.1) := by
  simp [isLoaded, handle?]

/-- The first module with a path is the one that is found and the one that is forgotten. -/
theorem exists_modules_eq {l : Loader Handle} {path : Text} {h : Handle} (hh : l.handle? path = some h) :
    ∃ before after, l.modules = before ++ (path, h) :: after ∧
      (l.forget path).modules = before ++ after := by
  obtain ⟨⟨p, h'⟩, hfind, rfl⟩ := Option.map_eq_some_iff.1 hh
  obtain ⟨hp, before, after, hmodules, hbefore⟩ := List.find?_eq_some_iff_append.1 hfind
  obtain rfl := eq_of_beq hp
  refine ⟨before, after, hmodules, ?_⟩
  rw [forget, hmodules, List.eraseP_append_right _ (by simpa using hbefore),
    List.eraseP_cons_of_pos (by simp)]

theorem distinct_forget {l : Loader Handle} (hl : l.Distinct) (path : Text) : (l.forget path).Distinct :=
  (List.eraseP_sublist.map _).nodup hl

theorem isLoaded_forget {l : Loader Handle} (hl : l.Distinct) {path other : Text} {h : Handle}
    (hh : l.handle? path = some h) :
    (l.forget path).isLoaded other ↔ l.isLoaded other ∧ other ≠ path := by
  obtain ⟨before, after, hmodules, hforget⟩ := exists_modules_eq hh
  rw [Distinct, hmodules] at hl
  rw [isLoaded_iff, isLoaded_iff, hforget, hmodules]
  grind

theorem distinct_append {l : Loader Handle} (hl : l.Distinct) {path : Text} (hp : ¬l.isLoaded path)
    (h : Handle) : (Loader.mk (l.modules ++ [(path, h)])).Distinct := by
  rw [isLoaded_iff] at hp
  rw [Distinct] at hl ⊢
  grind

theorem isLoaded_append {l : Loader Handle} {path other : Text} {h : Handle} :
    (Loader.mk (l.modules ++ [(path, h)])).isLoaded other ↔ l.isLoaded other ∨ other = path := by
  simp [isLoaded_iff]

/-! ### One exchange -/

/-- What one exchange with the linker does to the modules and to the record. A path is opened only if it is
not loaded, and what is closed is the handle of a loaded module, which is forgotten. -/
inductive Move : Loader Handle × Record Handle → Loader Handle × Record Handle → Prop
  | gain {l : Loader Handle} {r : Record Handle} {path : Text} {h : Handle} (hp : ¬l.isLoaded path) :
      Move (l, r) (⟨l.modules ++ [(path, h)]⟩, r ++ [.opened path (.ok h)])
  | lose {l : Loader Handle} {r : Record Handle} {path : Text} {h : Handle} {answer : Except Text Unit}
      (hh : l.handle? path = some h) : Move (l, r) (l.forget path, r ++ [.closed h answer])
  | idle {l : Loader Handle} {r : Record Handle} {x : Exchange Handle} (hg : x.given? = none)
      (hr : x.returned? = none) : Move (l, r) (l, r ++ [x])

/-- The handles that were given out are those on which a close was called and those of the modules. -/
structure Balanced (l : Loader Handle) (r : Record Handle) : Prop where
  distinct : l.Distinct
  handles : r.given.Perm (r.returned ++ l.modules.map (·.2))
  covered : r.Covered

theorem balanced_empty : Balanced (empty : Loader Handle) [] where
  distinct := List.nodup_nil
  handles := .refl _
  covered past h := by rw [List.prefix_nil.1 h]; exact .refl _

theorem Move.distinct {l l' : Loader Handle} {r r' : Record Handle} (h : Move (l, r) (l', r'))
    (hl : l.Distinct) : l'.Distinct := by
  cases h with
  | gain hp => exact distinct_append hl hp _
  | lose => exact distinct_forget hl _
  | idle => exact hl

theorem Move.handles {l l' : Loader Handle} {r r' : Record Handle} (h : Move (l, r) (l', r'))
    (hr : r.given.Perm (r.returned ++ l.modules.map (·.2))) :
    r'.given.Perm (r'.returned ++ l'.modules.map (·.2)) := by
  cases h with
  | @gain _ _ path h hp =>
    rw [Record.given_concat, Record.returned_concat]
    simpa [Exchange.given?, Exchange.returned?] using hr.append_right [h]
  | @lose _ _ path h answer hh =>
    obtain ⟨before, after, hmodules, hforget⟩ := exists_modules_eq hh
    have hmiddle : (l.modules.map (·.2)).Perm (h :: (before ++ after).map (·.2)) := by
      rw [hmodules, List.map_append, List.map_append]
      exact List.perm_middle
    rw [Record.given_concat, Record.returned_concat, hforget]
    simpa [Exchange.given?, Exchange.returned?] using hr.trans (hmiddle.append_left r.returned)
  | idle hg hr' =>
    rw [Record.given_concat, Record.returned_concat, hg, hr']
    simpa using hr

/-- One exchange keeps the balance. -/
theorem Move.balanced {l l' : Loader Handle} {r r' : Record Handle} (h : Move (l, r) (l', r'))
    (hb : Balanced l r) : Balanced l' r' := by
  have hhandles := h.handles hb.handles
  refine ⟨h.distinct hb.distinct, hhandles, ?_⟩
  cases h with
  | gain | lose | idle => exact hb.covered.concat hhandles

/-- Any number of exchanges. -/
abbrev Moves : Loader Handle × Record Handle → Loader Handle × Record Handle → Prop :=
  Relation.ReflTransGen Move

theorem Moves.balanced {x y : Loader Handle × Record Handle} (h : Moves x y) (hb : Balanced x.1 x.2) :
    Balanced y.1 y.2 := by
  induction h with
  | refl => exact hb
  | tail _ hmove ih => exact hmove.balanced ih

/-! ### One call -/

/-- What a call does: some exchanges, and a change in what is loaded that its answer tells truly. -/
structure Answered (c : Call) (l : Loader Handle) (r : Record Handle)
    (result : (Loader Handle × Except Refusal Unit) × Record Handle) : Prop where
  moves : Moves (l, r) (result.1.1, result.2)
  concerned : ∀ path, c.Concerns path → (result.1.1.isLoaded path ↔ c = .load path ∧ result.1.2 = .ok ())
  others : ∀ path, ¬c.Concerns path → (result.1.1.isLoaded path ↔ l.isLoaded path)
  found : ∀ path name, c = .symbol path name → result.1.2 = .ok () → l.isLoaded path

section

variable {a : Answers Handle} {l : Loader Handle} {path : Text} {r : Record Handle}

theorem run_unload_of_none (h : l.handle? path = none) :
    (l.unload a.linker path).run r = ((l, .error (.notLoaded path)), r) := by
  rw [unload, h]
  rfl

/-- A loaded module is forgotten, whatever its close gives. -/
theorem run_unload_of_some {h : Handle} (hh : l.handle? path = some h) : (l.unload a.linker path).run r
    = ((l.forget path, (a.close r h).mapError (.unloadFailed path)), r ++ [.closed h (a.close r h)]) := by
  have hclose : (a.linker.close h).run r = (a.close r h, r ++ [.closed h (a.close r h)]) := rfl
  rw [unload, hh, StateT.run_bind, hclose]
  cases a.close r h <;> rfl

/-- A module is added if the linker gives a handle. -/
theorem run_loadNew : (l.loadNew a.linker path).run r
    = match a.load r path with
      | .ok h => ((⟨l.modules ++ [(path, h)]⟩, .ok ()), r ++ [.opened path (.ok h)])
      | .error reason => ((l, .error (.loadFailed path reason)), r ++ [.opened path (.error reason)]) := by
  have hload : (a.linker.load path).run r = (a.load r path, r ++ [.opened path (a.load r path)]) := rfl
  rw [loadNew, StateT.run_bind, hload]
  cases a.load r path <;> rfl

theorem run_load_of_none (h : l.handle? path = none) :
    (l.load a.linker path).run r = (l.loadNew a.linker path).run r := by
  rw [load, isLoaded, h]
  rfl

theorem run_load_of_some {h : Handle} (hh : l.handle? path = some h) : (l.load a.linker path).run r
    = match a.close r h with
      | .ok () => ((l.forget path).loadNew a.linker path).run (r ++ [.closed h (.ok ())])
      | .error reason =>
        ((l.forget path, .error (.unloadFailed path reason)), r ++ [.closed h (.error reason)]) := by
  rw [load, isLoaded, hh, Option.isSome_some, if_pos rfl, StateT.run_bind, run_unload_of_some hh]
  cases a.close r h <;> rfl

theorem run_symbol_of_none (h : l.handle? path = none) (name : Text) :
    (l.symbol a.linker path name).run r = (.error (.notLoaded path), r) := by
  rw [symbol, h]
  rfl

theorem run_symbol_of_some {h : Handle} (hh : l.handle? path = some h) (name : Text) :
    (l.symbol a.linker path name).run r
      = ((a.symbol r h name).mapError (.missingSymbol path name), r ++ [.searched h name (a.symbol r h name)]) := by
  have hsymbol : (a.linker.symbol h name).run r
      = (a.symbol r h name, r ++ [.searched h name (a.symbol r h name)]) := rfl
  rw [symbol, hh, StateT.run_bind, hsymbol]
  cases a.symbol r h name <;> rfl

theorem concerns_load_iff {other : Text} : (Call.load path).Concerns other ↔ other = path := by
  simp [Call.Concerns, eq_comm]

theorem concerns_unload_iff {other : Text} : (Call.unload path).Concerns other ↔ other = path := by
  simp [Call.Concerns, eq_comm]

theorem loadNew_answered (a : Answers Handle) (r : Record Handle) (hp : ¬l.isLoaded path) :
    Answered (.load path) l r ((l.loadNew a.linker path).run r) := by
  rw [run_loadNew]
  cases a.load r path with
  | ok h =>
    refine ⟨.single (.gain hp), fun other hother => ?_, fun other hother => ?_, nofun⟩
    · obtain rfl := concerns_load_iff.1 hother
      simp [isLoaded_append]
    · rw [isLoaded_append]
      exact or_iff_left fun heq => hother (concerns_load_iff.2 heq)
  | error reason =>
    refine ⟨.single (.idle rfl rfl), fun other hother => ?_, fun _ _ => Iff.rfl, nofun⟩
    obtain rfl := concerns_load_iff.1 hother
    simpa using hp

/-- A path that is loaded is forgotten before it is opened again, also if that fails. -/
theorem load_answered (a : Answers Handle) (r : Record Handle) (hl : l.Distinct) (path : Text) :
    Answered (.load path) l r ((l.load a.linker path).run r) := by
  cases hh : l.handle? path with
  | none =>
    rw [run_load_of_none hh]
    exact loadNew_answered a r (by simp [isLoaded, hh])
  | some h =>
    have hp : ¬(l.forget path).isLoaded path := by simp [isLoaded_forget hl hh]
    have hothers : ∀ other, ¬(Call.load path).Concerns other →
        ((l.forget path).isLoaded other ↔ l.isLoaded other) := by
      intro other hother
      rw [isLoaded_forget hl hh]
      exact and_iff_left fun heq => hother (concerns_load_iff.2 heq)
    rw [run_load_of_some hh]
    cases a.close r h with
    | ok =>
      have hnew := loadNew_answered a (r ++ [.closed h (.ok ())]) hp
      refine ⟨.head (.lose hh) hnew.moves, hnew.concerned, fun other hother => ?_, nofun⟩
      exact (hnew.others other hother).trans (hothers other hother)
    | error reason =>
      refine ⟨.single (.lose hh), fun other hother => ?_, hothers, nofun⟩
      obtain rfl := concerns_load_iff.1 hother
      simpa using hp

theorem unload_answered (a : Answers Handle) (r : Record Handle) (hl : l.Distinct) (path : Text) :
    Answered (.unload path) l r ((l.unload a.linker path).run r) := by
  cases hh : l.handle? path with
  | none =>
    rw [run_unload_of_none hh]
    refine ⟨.refl, fun other hother => ?_, fun _ _ => Iff.rfl, nofun⟩
    obtain rfl := concerns_unload_iff.1 hother
    simp [isLoaded, hh]
  | some h =>
    rw [run_unload_of_some hh]
    refine ⟨.single (.lose hh), fun other hother => ?_, fun other hother => ?_, nofun⟩
    · obtain rfl := concerns_unload_iff.1 hother
      simp [isLoaded_forget hl hh]
    · rw [isLoaded_forget hl hh]
      exact and_iff_left fun heq => hother (concerns_unload_iff.2 heq)

theorem symbol_answered (a : Answers Handle) (l : Loader Handle) (r : Record Handle) (path name : Text) :
    Answered (.symbol path name) l r ((l.call a.linker (.symbol path name)).run r) := by
  have hrun : (l.call a.linker (.symbol path name)).run r
      = ((l, ((l.symbol a.linker path name).run r).1), ((l.symbol a.linker path name).run r).2) := rfl
  have hnone : ∀ other, ¬(Call.symbol path name).Concerns other := by simp [Call.Concerns]
  rw [hrun]
  cases hh : l.handle? path with
  | none =>
    rw [run_symbol_of_none hh]
    exact ⟨.refl, fun other hother => absurd hother (hnone other), fun _ _ => Iff.rfl, nofun⟩
  | some h =>
    rw [run_symbol_of_some hh]
    refine ⟨.single (.idle rfl rfl), fun other hother => absurd hother (hnone other), fun _ _ => Iff.rfl, ?_⟩
    rintro _ _ ⟨rfl, rfl⟩ -
    simp [isLoaded, hh]

theorem call_answered (a : Answers Handle) (r : Record Handle) (hl : l.Distinct) (c : Call) :
    Answered c l r ((l.call a.linker c).run r) := by
  cases c with
  | load path => exact load_answered a r hl path
  | unload path => exact unload_answered a r hl path
  | symbol path name => exact symbol_answered a l r path name

end

/-! ### Histories -/

section

variable {path : Text} {history : History} {c : Call} {answer : Except Refusal Unit}

theorem current_concat_of_concerns (hc : c.Concerns path) :
    Current path (history ++ [(c, answer)]) ↔ c = .load path ∧ answer = .ok () := by
  constructor
  · rintro ⟨before, after, heq, hafter⟩
    rcases List.eq_nil_or_concat after with rfl | ⟨after, x, rfl⟩
    · have hlast := (List.append_inj' heq rfl).2
      simpa using hlast
    · rw [List.concat_eq_append, ← List.cons_append, ← List.append_assoc] at heq
      have hlast := (List.append_inj' heq rfl).2
      have hx := hafter x (by simp)
      rw [← (List.cons.inj hlast).1] at hx
      exact absurd hc hx
  · rintro ⟨rfl, rfl⟩
    exact ⟨history, [], rfl, by simp⟩

theorem current_concat_of_not_concerns (hc : ¬c.Concerns path) :
    Current path (history ++ [(c, answer)]) ↔ Current path history := by
  constructor
  · rintro ⟨before, after, heq, hafter⟩
    rcases List.eq_nil_or_concat after with rfl | ⟨after, x, rfl⟩
    · have hlast := (List.append_inj' heq rfl).2
      have hload : c = .load path := by simpa using (congrArg Prod.fst (List.cons.inj hlast).1)
      exact absurd (Or.inl hload) hc
    · rw [List.concat_eq_append, ← List.cons_append, ← List.append_assoc] at heq
      exact ⟨before, after, (List.append_inj' heq rfl).1, fun y hy => hafter y (by simp [hy])⟩
  · rintro ⟨before, after, rfl, hafter⟩
    refine ⟨before, after ++ [(c, answer)], by simp, fun x hx => ?_⟩
    rcases List.mem_append.1 hx with hx | hx
    · exact hafter x hx
    · rwa [List.mem_singleton.1 hx]

end

/-- What holds of a loader and its calls, with the record of all exchanges. -/
structure Session.Sound (s : Session Handle) (r : Record Handle) : Prop where
  balanced : Balanced s.loader r
  loaded : ∀ path, s.loader.isLoaded path ↔ Current path s.history
  found : ∀ before path name after, s.history = before ++ (.symbol path name, .ok ()) :: after →
    Current path before

namespace Session

variable {s : Session Handle} {r : Record Handle}

theorem sound_start : Sound ⟨(empty : Loader Handle), []⟩ [] where
  balanced := balanced_empty
  loaded path := by simp [isLoaded, handle?, empty, Current]
  found before path name after h := by simp at h

theorem Sound.answered (h : s.Sound r) {c : Call}
    {result : (Loader Handle × Except Refusal Unit) × Record Handle} (hc : Answered c s.loader r result) :
    Sound ⟨result.1.1, s.history ++ [(c, result.1.2)]⟩ result.2 where
  balanced := hc.moves.balanced h.balanced
  loaded path := by
    by_cases hpath : c.Concerns path
    · rw [hc.concerned path hpath, current_concat_of_concerns hpath]
    · rw [hc.others path hpath, current_concat_of_not_concerns hpath, h.loaded]
  found before path name after heq := by
    rcases List.eq_nil_or_concat after with rfl | ⟨after, x, rfl⟩
    · obtain ⟨rfl, hlast⟩ := List.append_inj' heq rfl
      obtain ⟨rfl, hanswer⟩ := Prod.mk.inj (List.cons.inj hlast).1
      exact (h.loaded path).1 (hc.found path name rfl hanswer)
    · rw [List.concat_eq_append, ← List.cons_append, ← List.append_assoc] at heq
      exact h.found before path name after (List.append_inj' heq rfl).1

/-- Calls keep what holds of a session, and are all in its history. -/
theorem Sound.calls (a : Answers Handle) (calls : List Call) (h : s.Sound r) :
    Sound ((calls.foldlM (Session.call a.linker) s).run r).1 ((calls.foldlM (Session.call a.linker) s).run r).2 ∧
      ((calls.foldlM (Session.call a.linker) s).run r).1.history.map (·.1) = s.history.map (·.1) ++ calls := by
  induction calls generalizing s r with
  | nil => exact ⟨h, (List.append_nil _).symm⟩
  | cons c calls ih =>
    obtain ⟨hsound, hhistory⟩ := ih (h.answered (call_answered a r h.balanced.distinct c))
    refine ⟨hsound, hhistory.trans ?_⟩
    simp

end Session

/-! ### Closing -/

/-- Closing what is left pays back all handles. -/
theorem balance_forM_close (a : Answers Handle) (entries : List (Text × Handle)) (r : Record Handle)
    (hr : r.given.Perm (r.returned ++ entries.map (·.2))) (hcovered : r.Covered) :
    let whole : Record Handle := ((entries.forM fun entry => discard (a.linker.close entry.2)).run r).2
    r <+: whole ∧ whole.given.Perm whole.returned ∧ whole.Covered := by
  induction entries generalizing r with
  | nil =>
    rw [List.map_nil, List.append_nil] at hr
    exact ⟨List.prefix_refl r, hr, hcovered⟩
  | cons entry entries ih =>
    have hperm : (Record.given (r ++ [.closed entry.2 (a.close r entry.2)])).Perm
        (Record.returned (r ++ [.closed entry.2 (a.close r entry.2)]) ++ entries.map (·.2)) := by
      rw [Record.given_concat, Record.returned_concat]
      simpa [Exchange.given?, Exchange.returned?] using hr
    obtain ⟨hstart, hbalance, hcovered⟩ := ih _ hperm (hcovered.concat hperm)
    exact ⟨(List.prefix_append r _).trans hstart, hbalance, hcovered⟩

/-- Whatever the linker answers, and whatever calls are made: the history is that of the calls; no two modules
have the same path; a path is loaded exactly if its last load succeeded and no unload of it followed; a symbol
is found only in a path that was loaded then. Once all modules are closed, the handles that were given out are
those on which a close was called, each as often, and at no time was one closed that was not out. -/
theorem handles_closed_once (a : Answers Handle) (calls : List Call) :
    let s : Session Handle := ((Session.run a.linker calls).run []).1
    let r : Record Handle := ((Session.run a.linker calls).run []).2
    let whole : Record Handle := ((s.loader.closeAll a.linker).run r).2
    s.history.map (·.1) = calls ∧
    (s.loader.modules.map (·.1)).Nodup ∧
    (∀ path, s.loader.isLoaded path ↔ Current path s.history) ∧
    (∀ before path name after, s.history = before ++ (.symbol path name, .ok ()) :: after →
      Current path before) ∧
    r <+: whole ∧ whole.given.Perm whole.returned ∧
    ∀ past : Record Handle, past <+: whole → past.returned.Subperm past.given := by
  intro s r whole
  obtain ⟨hsound, hhistory⟩ := Session.Sound.calls a calls Session.sound_start
  have hleft : r.given.Perm (r.returned ++ s.loader.modules.reverse.map (·.2)) :=
    hsound.balanced.handles.trans (((List.reverse_perm _).map _).symm.append_left _)
  obtain ⟨hstart, hbalance, hcovered⟩ := balance_forM_close a _ r hleft hsound.balanced.covered
  exact ⟨hhistory, hsound.balanced.distinct, hsound.loaded, hsound.found, hstart, hbalance, hcovered⟩

end Loader
end TagFormula
