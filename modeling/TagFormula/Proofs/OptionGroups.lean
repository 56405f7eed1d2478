import TagFormula.CommandLine.Options
import TagFormula.Proofs.RadixLiteral

/-!
Command lines as groups of arguments: a setting is a name with the argument behind it, a switch is a name alone.
Main statement: arguments are accepted exactly if they split into groups whose record is complete, the record
takes each setting from its last group, and neighbours for different options may change places.
-/

namespace TagFormula

/-! ### Whole numbers within 32 bits -/

/-- The number that the whole text stands for: digits behind blanks and a sign. -/
def WholeInt32 (t : Text) (n : Int) : Prop :=
  ∃ negative digits, Radix.decimal.Run negative digits t
    ∧ n = (if negative then -(Text.valueIn 10 digits : Int) else Text.valueIn 10 digits)
    ∧ -0x80000000 ≤ n ∧ n < 0x80000000

theorem int32AtStart?_eq_some_iff {t : Text} {n : Int} : int32AtStart? t = some (n, []) ↔ WholeInt32 t n := by
  constructor
  · intro h
    rw [int32AtStart?] at h
    split at h
    · cases h
    · rename_i run hrun
      simp only [Bool.and_eq_true, decide_eq_true_eq] at h
      split_ifs at h with hnegative hbounds hbounds
      all_goals
        obtain ⟨rfl, hrest⟩ := Prod.mk.inj (Option.some.inj h)
        obtain ⟨digits, hdigits⟩ := DigitRun.exists_run_of_read? (r := .decimal) hrun hrest
        have hvalue := Option.some.inj ((DigitRun.read?_of_run hdigits).symm.trans hrun)
        refine ⟨run.negative, digits, hdigits, ?_, hbounds⟩
        rw [← hvalue]
        simp [hnegative, Radix.base]
  · rintro ⟨negative, digits, hrun, rfl, hlower, hupper⟩
    have hread := DigitRun.read?_of_run hrun
    rw [int32AtStart?]
    simp only [show Radix.decimal.base = 10 from rfl] at hread
    rw [hread]
    cases negative <;> simp_all

/-- The number that is read at the start of a text. -/
def numberAtStart (t : Text) : Int := ((int32AtStart? t).map (·.1)).getD 0

theorem WholeInt32.numberAtStart_eq {t : Text} {n : Int} (h : WholeInt32 t n) : numberAtStart t = n := by
  rw [numberAtStart, int32AtStart?_eq_some_iff.2 h]
  rfl

namespace CommandLine

/-- A text that gives a bound in milliseconds. -/
def IsTimeout (t : Text) : Prop := ∃ n, WholeInt32 t n ∧ 0 < n

theorem setTimeout_of_isTimeout {v : Text} (h : IsTimeout v) (o : Options) :
    setTimeout o v = ({ o with timeout := numberAtStart v }, none) := by
  obtain ⟨n, hn, hpos⟩ := h
  rw [setTimeout, int32AtStart?_eq_some_iff.2 hn, hn.numberAtStart_eq]
  simp [Int.not_le.2 hpos]

theorem isTimeout_of_setTimeout {o : Options} {v : Text} (h : (setTimeout o v).2 = none) : IsTimeout v := by
  rw [setTimeout] at h
  split at h
  · cases h
  · rename_i n rest hread
    dsimp only at h
    split_ifs at h with hrest hpos
    have hnil : rest = [] := by simpa using hrest
    rw [hnil, int32AtStart?_eq_some_iff] at hread
    exact ⟨n, hread, Int.not_le.1 hpos⟩

/-! ### Groups -/

/-- Options with a value. -/
inductive Setting where
  | validate
  | generate
  | output
  | format
  | timeout
  | workDir
  | compiler
  deriving DecidableEq

/-- Options without one. -/
inductive Switch where
  | keepArtifacts
  | verbose
  | help
  | version
  deriving DecidableEq

namespace Setting

def spellings : Setting → List Text
  | validate => [ascii "--validate"]
  | generate => [ascii "--generate"]
  | output => [ascii "--output", ascii "-o"]
  | format => [ascii "--format"]
  | timeout => [ascii "--timeout-ms"]
  | workDir => [ascii "--work-dir"]
  | compiler => [ascii "--compiler"]

/-- Any value will do, except for a bound. -/
def Accepts (k : Setting) (v : Text) : Prop := k = timeout → IsTimeout v

def set (v : Text) (o : Options) : Setting → Options
  | validate => { o with validate := v }
  | generate => { o with generate := v }
  | output => { o with output := v }
  | format => { o with format := v }
  | timeout => { o with timeout := numberAtStart v }
  | workDir => { o with workDir := v }
  | compiler => { o with compiler := v }

end Setting

namespace Switch

def spellings : Switch → List Text
  | keepArtifacts => [ascii "--keep-artifacts"]
  | verbose => [ascii "--verbose", ascii "-v"]
  | help => [ascii "--help", ascii "-h"]
  | version => [ascii "--version"]

def set (o : Options) : Switch → Options
  | keepArtifacts => { o with keepArtifacts := true }
  | verbose => { o with verbose := true }
  | help => { o with showHelp := true }
  | version => { o with showVersion := true }

end Switch

/-- The arguments of one option. -/
inductive Group where
  | setting (k : Setting) (spelling : { s // s ∈ k.spellings }) (value : Text)
  | switch (k : Switch) (spelling : { s // s ∈ k.spellings })

namespace Group

def args : Group → List Text
  | setting _ spelling value => [spelling, value]
  | switch _ spelling => [spelling]

/-- The option that a group is for, whatever its spelling. -/
def option : Group → Setting ⊕ Switch
  | setting k _ _ => .inl k
  | switch k _ => .inr k

/-- The value that a group gives to a setting. -/
def valueFor? (k : Setting) : Group → Option Text
  | setting k' _ value => if k' = k then some value else none
  | switch _ _ => none

def isFor (k : Switch) : Group → Bool
  | setting _ _ _ => false
  | switch k' _ => k' = k

def Valid : Group → Prop
  | setting k _ value => k.Accepts value
  | switch _ _ => True

def apply (o : Options) : Group → Options
  | setting k _ value => k.set value o
  | switch k _ => k.set o

end Group

/-! ### Records -/

/-- The values of a setting, in order. -/
def values (k : Setting) (gs : List Group) : List Text := gs.filterMap (Group.valueFor? k)

/-- The value of the last group for a setting. -/
def lastValue (k : Setting) (default : Text) (gs : List Group) : Text := (values k gs).getLast?.getD default

/-- What groups record: the last value of each setting, and the switches that occur. -/
def record (gs : List Group) : Options where
  validate := lastValue .validate [] gs
  generate := lastValue .generate [] gs
  output := lastValue .output [] gs
  format := lastValue .format (ascii "text") gs
  timeout := ((values .timeout gs).getLast?.map numberAtStart).getD (-1)
  workDir := lastValue .workDir [] gs
  compiler := lastValue .compiler [] gs
  keepArtifacts := gs.any (Group.isFor .keepArtifacts)
  verbose := gs.any (Group.isFor .verbose)
  showHelp := gs.any (Group.isFor .help)
  showVersion := gs.any (Group.isFor .version)

/-- Help or version is asked for, or there is one mode with all that it needs. -/
def Options.Complete (o : Options) : Prop :=
  o.showHelp ∨ o.showVersion ∨
    (o.validate = [] ↔ o.generate ≠ []) ∧ (o.generate ≠ [] → o.output ≠ [])
      ∧ (o.format = ascii "text" ∨ o.format = ascii "json")

theorem Options.misuse?_eq_none_iff (o : Options) : o.misuse? = none ↔ o.Complete := by
  unfold misuse? Complete
  cases o.showHelp <;> cases o.showVersion <;> simp
  cases o.validate <;> cases o.generate <;> cases o.output <;> simp
  all_goals tauto

theorem values_concat (k : Setting) (gs : List Group) (g : Group) :
    values k (gs ++ [g]) = values k gs ++ (g.valueFor? k).toList := by
  rw [values, List.filterMap_append]
  cases h : g.valueFor? k <;> simp [values, h]

/-- A group overrides those in front of it. -/
theorem record_concat (gs : List Group) (g : Group) : record (gs ++ [g]) = g.apply (record gs) := by
  cases g with
  | setting k spelling value =>
    cases k <;> simp [record, lastValue, values_concat, Group.valueFor?, Group.isFor, Group.apply, Setting.set]
  | switch k spelling =>
    cases k <;> simp [record, lastValue, values_concat, Group.valueFor?, Group.isFor, Group.apply, Switch.set]

theorem foldl_apply_standard (gs : List Group) : gs.foldl Group.apply .standard = record gs := by
  induction gs using List.reverseRecOn with
  | nil => rfl
  | append_singleton gs g ih => rw [List.foldl_append, ih, record_concat]; rfl

theorem forall_valid_iff (gs : List Group) :
    (∀ g ∈ gs, g.Valid) ↔ ∀ v ∈ values .timeout gs, IsTimeout v := by
  simp only [values, List.mem_filterMap, forall_exists_index, and_imp]
  constructor
  · intro h v g hg hv
    cases g with
    | setting k spelling value =>
      simp only [Group.valueFor?, Option.ite_none_right_eq_some, Option.some.injEq] at hv
      obtain ⟨hk, rfl⟩ := hv
      exact h _ hg hk
    | switch k spelling => cases hv
  · intro h g hg
    cases g with
    | setting k spelling value =>
      intro hk
      exact h value _ hg (by rw [Group.valueFor?, if_pos hk])
    | switch k spelling => trivial

/-! ### Exchanging groups -/

theorem filterMap_pair_comm {α β : Type} {f : α → Option β} {a b : α} (h : f a = none ∨ f b = none) :
    [a, b].filterMap f = [b, a].filterMap f := by
  rcases h with h | h <;> simp [List.filterMap_cons, h]

theorem Group.option_of_valueFor? {k : Setting} {g : Group} (hg : g.valueFor? k ≠ none) : g.option = .inl k := by
  cases g with
  | setting k' spelling value =>
    rw [valueFor?, ne_eq, ite_eq_right_iff, not_forall] at hg
    obtain ⟨rfl, -⟩ := hg
    rfl
  | switch k' spelling => exact absurd rfl hg

theorem values_swap {g h : Group} (hne : g.option ≠ h.option) (k : Setting) (before after : List Group) :
    values k (before ++ g :: h :: after) = values k (before ++ h :: g :: after) := by
  have hnone : g.valueFor? k = none ∨ h.valueFor? k = none := by
    by_contra hboth
    rw [not_or] at hboth
    exact hne ((Group.option_of_valueFor? hboth.1).trans (Group.option_of_valueFor? hboth.2).symm)
  have hsplit (x y : Group) : values k (before ++ x :: y :: after)
      = values k before ++ ([x, y].filterMap (Group.valueFor? k) ++ values k after) := by
    rw [values, values, values, ← List.filterMap_append, ← List.filterMap_append]
    rfl
  rw [hsplit, hsplit, filterMap_pair_comm hnone]

/-- Groups for different options do not affect each other. -/
theorem record_swap {g h : Group} (hne : g.option ≠ h.option) (before after : List Group) :
    record (before ++ g :: h :: after) = record (before ++ h :: g :: after) := by
  have hany (k : Switch) : (before ++ g :: h :: after).any (Group.isFor k)
      = (before ++ h :: g :: after).any (Group.isFor k) := by
    simp only [List.any_append, List.any_cons, Bool.or_left_comm]
  simp only [record, lastValue, values_swap hne, hany]

/-! ### Reading -/

/-- An entry of the table does what a setting says: it takes the values that are accepted, and only these. -/
structure ValueOption.Implements (entry : ValueOption) (k : Setting) : Prop where
  set_of_accepts : ∀ {v}, k.Accepts v → ∀ o, entry.set o v = (k.set v o, none)
  accepts_of_set : ∀ {o v}, (entry.set o v).2 = none → k.Accepts v

theorem Setting.exists_entry (k : Setting) {arg : Text} (harg : arg ∈ k.spellings) :
    ∃ entry, valueOptions.find? (fun option => isOneOf option.names arg) = some entry
      ∧ entry.Implements k := by
  cases k with
  | timeout =>
    obtain rfl := List.mem_singleton.1 harg
    exact ⟨_, rfl, fun h o => setTimeout_of_isTimeout (h rfl) o, fun h _ => isTimeout_of_setTimeout h⟩
  | output => rcases List.mem_pair.1 harg with rfl | rfl <;> exact ⟨_, rfl, fun _ _ => rfl, fun _ h => nomatch h⟩
  | _ =>
    obtain rfl := List.mem_singleton.1 harg
    exact ⟨_, rfl, fun _ _ => rfl, fun _ h => nomatch h⟩

theorem Switch.exists_entry (k : Switch) {arg : Text} (harg : arg ∈ k.spellings) :
    valueOptions.find? (fun option => isOneOf option.names arg) = none
      ∧ ∃ entry, switches.find? (fun entry => isOneOf entry.1 arg) = some entry ∧ ∀ o, entry.2 o = k.set o := by
  cases k with
  | verbose | help => rcases List.mem_pair.1 harg with rfl | rfl <;> exact ⟨rfl, _, rfl, fun _ => rfl⟩
  | keepArtifacts | version =>
    obtain rfl := List.mem_singleton.1 harg
    exact ⟨rfl, _, rfl, fun _ => rfl⟩

theorem mem_map_of_isOneOf {names : List String} {arg : Text} (h : isOneOf names arg) : arg ∈ names.map ascii := by
  obtain ⟨name, hname, heq⟩ := List.any_eq_true.1 h
  exact List.mem_map.2 ⟨name, hname, beq_iff_eq.1 heq⟩

theorem exists_setting_of_find? {arg : Text} {entry : ValueOption}
    (h : valueOptions.find? (fun option => isOneOf option.names arg) = some entry) :
    ∃ k : Setting, arg ∈ k.spellings := by
  have hname := List.find?_some h
  have hmem := List.mem_of_find?_eq_some h
  have hspelled : ∀ entry ∈ valueOptions, ∃ k : Setting, k.spellings = entry.names.map ascii := by
    simp only [valueOptions, List.forall_mem_cons]
    exact ⟨⟨.validate, rfl⟩, ⟨.generate, rfl⟩, ⟨.output, rfl⟩, ⟨.format, rfl⟩, ⟨.timeout, rfl⟩, ⟨.workDir, rfl⟩,
      ⟨.compiler, rfl⟩, List.forall_mem_nil _⟩
  obtain ⟨k, hk⟩ := hspelled entry hmem
  exact ⟨k, hk ▸ mem_map_of_isOneOf hname⟩

theorem exists_switch_of_find? {arg : Text} {entry : List String × (Options → Options)}
    (h : switches.find? (fun entry => isOneOf entry.1 arg) = some entry) : ∃ k : Switch, arg ∈ k.spellings := by
  have hname := List.find?_some h
  have hmem := List.mem_of_find?_eq_some h
  have hspelled : ∀ entry ∈ switches, ∃ k : Switch, k.spellings = entry.1.map ascii := by
    simp only [switches, List.forall_mem_cons]
    exact ⟨⟨.keepArtifacts, rfl⟩, ⟨.verbose, rfl⟩, ⟨.help, rfl⟩, ⟨.version, rfl⟩, List.forall_mem_nil _⟩
  obtain ⟨k, hk⟩ := hspelled entry hmem
  exact ⟨k, hk ▸ mem_map_of_isOneOf hname⟩

/-- One group is read as it is meant. -/
theorem read_group {g : Group} (hg : g.Valid) (o : Options) (rest : List Text) :
    read o (g.args ++ rest) = read (g.apply o) rest := by
  cases g with
  | setting k spelling value =>
    obtain ⟨entry, hfind, hentry⟩ := k.exists_entry spelling.2
    simp only [Group.args, List.cons_append, List.nil_append, read, hfind, hentry.set_of_accepts hg, Group.apply]
  | switch k spelling =>
    obtain ⟨hnone, entry, hfind, hentry⟩ := k.exists_entry spelling.2
    simp only [Group.args, List.cons_append, List.nil_append, read, hnone, hfind, hentry, Group.apply]

theorem valid_of_read_group {g : Group} {o : Options} {rest : List Text}
    (h : (read o (g.args ++ rest)).2 = none) : g.Valid := by
  cases g with
  | setting k spelling value =>
    obtain ⟨entry, hfind, hentry⟩ := k.exists_entry spelling.2
    refine hentry.accepts_of_set (o := o) ?_
    simp only [Group.args, List.cons_append, List.nil_append, read, hfind] at h
    split at h
    · rename_i next hset
      rw [hset]
    · exact h
  | switch k spelling => trivial

/-- A run over groups, one step for each. -/
theorem read_groups_eq_none_iff (o : Options) (gs : List Group) :
    (read o (gs.flatMap Group.args)).2 = none ↔ ∀ g ∈ gs, g.Valid := by
  induction gs generalizing o with
  | nil => simp [read]
  | cons g gs ih =>
    rw [List.flatMap_cons, List.forall_mem_cons]
    constructor
    · intro h
      have hg := valid_of_read_group h
      rw [read_group hg, ih] at h
      exact ⟨hg, h⟩
    · rintro ⟨hg, hgs⟩
      rw [read_group hg, ih]
      exact hgs

theorem read_groups {gs : List Group} (h : ∀ g ∈ gs, g.Valid) (o : Options) :
    read o (gs.flatMap Group.args) = (gs.foldl Group.apply o, none) := by
  induction gs generalizing o with
  | nil => simp [read]
  | cons g gs ih =>
    rw [List.forall_mem_cons] at h
    rw [List.flatMap_cons, read_group h.1, ih h.2, List.foldl_cons]

/-- Whatever is read to the end splits into groups. -/
theorem exists_groups_of_read {o : Options} {args : List Text} (h : (read o args).2 = none) :
    ∃ gs : List Group, args = gs.flatMap Group.args := by
  fun_induction read o args with
  | case1 => exact ⟨[], rfl⟩
  | case2 => cases h
  | case3 o arg option hfind value after next hset ih =>
    obtain ⟨k, hk⟩ := exists_setting_of_find? hfind
    obtain ⟨gs, rfl⟩ := ih h
    exact ⟨.setting k ⟨arg, hk⟩ value :: gs, rfl⟩
  | case4 o arg option hfind value after hstopped => exact (hstopped _ (Prod.ext rfl h)).elim
  | case5 o arg rest hnone entry hfind ih =>
    obtain ⟨k, hk⟩ := exists_switch_of_find? hfind
    obtain ⟨gs, rfl⟩ := ih h
    exact ⟨.switch k ⟨arg, hk⟩ :: gs, rfl⟩
  | case6 => cases h

/-! ### Command lines -/

/-- Arguments, each up to its first zero byte, are the groups one after another. -/
def Splits (args : List Text) (gs : List Group) : Prop := args.map Text.upToZero = gs.flatMap Group.args

theorem parse_of_valid {args : List Text} {gs : List Group} (h : Splits args gs) (hvalid : ∀ g ∈ gs, g.Valid) :
    parse args = (record gs, (record gs).misuse?) := by
  rw [parse, h, read_groups hvalid, foldl_apply_standard]

theorem read_of_parse {args : List Text} (h : (parse args).2 = none) :
    (read .standard (args.map Text.upToZero)).2 = none := by
  unfold parse at h
  split at h
  · rename_i o hread
    rw [hread]
  · exact h

theorem parse_eq_none_iff_of_splits {args : List Text} {gs : List Group} (h : Splits args gs) :
    (parse args).2 = none ↔ (∀ v ∈ values .timeout gs, IsTimeout v) ∧ (record gs).Complete := by
  rw [← forall_valid_iff, ← Options.misuse?_eq_none_iff]
  constructor
  · intro hparse
    have hvalid : ∀ g ∈ gs, g.Valid := by
      rw [← read_groups_eq_none_iff .standard, ← h]
      exact read_of_parse hparse
    rw [parse_of_valid h hvalid] at hparse
    exact ⟨hvalid, hparse⟩
  · rintro ⟨hvalid, hcomplete⟩
    rw [parse_of_valid h hvalid, hcomplete]

theorem parse_fst_of_splits {args : List Text} {gs : List Group} (h : Splits args gs)
    (hparse : (parse args).2 = none) : (parse args).1 = record gs := by
  have hvalid := (parse_eq_none_iff_of_splits h).1 hparse
  rw [parse_of_valid h ((forall_valid_iff gs).2 hvalid.1)]

/-- The bound is the number that the last group for it gives. -/
theorem wholeInt32_timeout_record {gs : List Group} (h : ∀ v ∈ values .timeout gs, IsTimeout v) {v : Text}
    (hv : v ∈ (values .timeout gs).getLast?) : WholeInt32 v (record gs).timeout := by
  obtain ⟨n, hn, -⟩ := h v (List.mem_of_mem_getLast? hv)
  have htimeout : (record gs).timeout = numberAtStart v := by simp [record, Option.mem_def.1 hv]
  rw [htimeout, hn.numberAtStart_eq]
  exact hn

/-- Arguments are accepted exactly if they split into groups, each bound is a whole positive number, and the record
of the groups is complete. The options are then that record, with the last bound as a number. Neighbouring groups for different options may change
places: the record is the same, and so is what becomes of the arguments. -/
theorem parse_eq_none_iff_exists_groups (args : List Text) :
    ((parse args).2 = none ↔ ∃ gs : List Group, Splits args gs
      ∧ (∀ v ∈ values .timeout gs, IsTimeout v) ∧ (record gs).Complete)
    ∧ (∀ gs : List Group, Splits args gs → (parse args).2 = none → (parse args).1 = record gs
      ∧ ∀ v ∈ (values .timeout gs).getLast?, WholeInt32 v (parse args).1.timeout)
    ∧ ∀ (before after : List Group) (g h : Group), g.option ≠ h.option →
      record (before ++ h :: g :: after) = record (before ++ g :: h :: after)
      ∧ ∀ args' : List Text, Splits args (before ++ g :: h :: after) → Splits args' (before ++ h :: g :: after) →
        ((parse args').2 = none ↔ (parse args).2 = none)
        ∧ ((parse args).2 = none → (parse args').1 = (parse args).1) := by
  refine ⟨⟨fun hparse => ?_, ?_⟩, fun gs hsplit hparse => ?_, fun before after g h hne => ⟨?_, ?_⟩⟩
  · obtain ⟨gs, hsplit⟩ := exists_groups_of_read (read_of_parse hparse)
    exact ⟨gs, hsplit, (parse_eq_none_iff_of_splits hsplit).1 hparse⟩
  · rintro ⟨gs, hsplit, hrecord⟩
    exact (parse_eq_none_iff_of_splits hsplit).2 hrecord
  · have hoptions := parse_fst_of_splits hsplit hparse
    rw [hoptions]
    exact ⟨rfl, fun v => wholeInt32_timeout_record ((parse_eq_none_iff_of_splits hsplit).1 hparse).1⟩
  · exact (record_swap hne before after).symm
  · intro args' hsplit hsplit'
    have hiff : (parse args').2 = none ↔ (parse args).2 = none := by
      rw [parse_eq_none_iff_of_splits hsplit, parse_eq_none_iff_of_splits hsplit', record_swap hne,
        values_swap hne]
    refine ⟨hiff, fun hparse => ?_⟩
    rw [parse_fst_of_splits hsplit hparse, parse_fst_of_splits hsplit' (hiff.2 hparse), record_swap hne]

/-- An output that looks like an option. -/
def dashedOutput : Group := .setting .output ⟨ascii "-o", by decide⟩ (ascii "--help")

def generateGroup : Group := .setting .generate ⟨ascii "--generate", by decide⟩ (ascii "x")

def timeoutGroup (t : Text) : Group := .setting .timeout ⟨ascii "--timeout-ms", by decide⟩ t

/-- Two bounds with a mode in front of them, or with the mode between them. -/
def twoBounds (modeFirst : Bool) : List Group :=
  if modeFirst then [dashedOutput] ++ generateGroup :: timeoutGroup (ascii " +5") :: [timeoutGroup (ascii "7")]
  else [dashedOutput] ++ timeoutGroup (ascii " +5") :: generateGroup :: [timeoutGroup (ascii "7")]

/-- The last bound counts in either order, and a value is no option. -/
theorem parse_twoBounds :
    generateGroup.option ≠ (timeoutGroup (ascii " +5")).option
    ∧ (∀ modeFirst, Splits ((twoBounds modeFirst).flatMap Group.args) (twoBounds modeFirst))
    ∧ (parse ((twoBounds true).flatMap Group.args)).2 = none
    ∧ (parse ((twoBounds true).flatMap Group.args)).1 = record (twoBounds true)
    ∧ (parse ((twoBounds false).flatMap Group.args)).1 = (parse ((twoBounds true).flatMap Group.args)).1
    ∧ (record (twoBounds true)).timeout = 7 ∧ (record (twoBounds true)).output = ascii "--help"
    ∧ (record (twoBounds true)).showHelp = false := by
  have hne : generateGroup.option ≠ (timeoutGroup (ascii " +5")).option := by decide
  have haccepted : (parse ((twoBounds true).flatMap Group.args)).2 = none := by decide +kernel
  have hsplits : ∀ modeFirst, Splits ((twoBounds modeFirst).flatMap Group.args) (twoBounds modeFirst) := by
    unfold Splits
    decide +kernel
  obtain ⟨-, hrecord, hswap⟩ := parse_eq_none_iff_exists_groups ((twoBounds true).flatMap Group.args)
  have hparse := (hswap _ _ _ _ hne).2 _ (hsplits true) (hsplits false)
  exact ⟨hne, hsplits, haccepted, (hrecord _ (hsplits true) haccepted).1, hparse.2 haccepted, by decide +kernel,
    by decide +kernel, by decide +kernel⟩

end CommandLine
end TagFormula
