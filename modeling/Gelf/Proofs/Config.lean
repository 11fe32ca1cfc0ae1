import Gelf.Config
import Gelf.Proofs.Decimal.Naturals
import Mathlib.Data.List.TakeWhile

/-!
# Reading the options

The variables are asked for in order, each once, and the first bad value decides what a reading of
an environment comes to. If none is bad, every option is what the text of its variable says, or its
default. That holds although a value that is not Unicode is hidden from the reading and overrides
its result in the end: what it hides behind it was never asked for.
-/

namespace Gelf

/-! ### Values -/

namespace Text

theorem trimChars_eq_nil_iff {cs : List Char} : trimChars cs = [] ↔ ∀ c ∈ cs, isBlank c = true := by
  rw [trimChars, List.reverse_eq_nil_iff, List.dropWhile_eq_nil_iff]
  simp only [List.mem_reverse]
  constructor
  · intro h
    cases hrest : cs.dropWhile isBlank with
    | nil => exact List.dropWhile_eq_nil_iff.1 hrest
    | cons c rest =>
      -- what is left begins with a character that is not blank
      have hvisible := List.head_dropWhile_not isBlank (l := cs) (by simp [hrest])
      simp only [hrest, List.head_cons] at hvisible
      rw [h c (by simp [hrest])] at hvisible
      cases hvisible
  · intro h c hc
    exact h c ((List.dropWhile_sublist isBlank).mem hc)

/-- Nothing is left of a text if it is blank. -/
theorem trim_eq_empty_iff {s : String} : trim s = "" ↔ blank s = true := by
  rw [blank_eq_true_iff, ← trimChars_eq_nil_iff, trim, String.ofList_eq_empty_iff]

theorem trim_ne_empty {s : String} (h : blank s = false) : trim s ≠ "" := by
  rw [Ne, trim_eq_empty_iff, h]
  exact Bool.false_ne_true

end Text

/-- The names are told apart by the case of ASCII letters only. -/
theorem Compression.parse_eq_ok_iff {s : String} (hs : s ≠ "") {c : Compression} :
    parse s = .ok c ↔ s.toList.map Char.toLower = c.name.toList := by
  have hname (name : String) : String.ofList (s.toList.map Char.toLower) = name ↔
      s.toList.map Char.toLower = name.toList := by
    rw [← String.toList_inj, String.toList_ofList]
  have hempty : ¬ s.toList.map Char.toLower = "".toList := by
    intro h
    exact hs (String.toList_eq_nil_iff.1 (List.map_eq_nil_iff.1 h))
  rw [parse]
  simp only [hname, hempty, false_or]
  split_ifs with hnone hgzip hzlib
  · rw [hnone]
    cases c <;> decide
  · rw [hgzip]
    cases c <;> decide
  · rw [hzlib]
    cases c <;> decide
  · refine iff_of_false nofun fun h => ?_
    cases c with
    | none => exact hnone h
    | gzip => exact hgzip h
    | zlib => exact hzlib h

theorem Compression.toList_name_inj {c c' : Compression} (h : c.name.toList = c'.name.toList) :
    c = c' := by
  cases c <;> cases c' <;> first | rfl | cases h

/-- The texts that are a value of the variable. -/
def Variable.Accepts : Variable → String → Prop
  | .host, _ => True
  | .port, s => ∃ n ≤ 65535, Decimal.StandsFor s.toList n
  | .maxChunkSize, s => ∃ n < 2 ^ 64, Decimal.StandsFor s.toList n
  | .compression, s => ∃ c : Compression, s.toList.map Char.toLower = c.name.toList
  | .sourceHost, _ => True

namespace Config

/-- The option of a variable is what the text says, or the default if there is no text. -/
def Shows (config : Config) (text? : Option String) : Variable → Prop
  | .host => config.host = text?.getD "127.0.0.1"
  | .port => text?.elim (config.port = 12201) fun s =>
    Decimal.StandsFor s.toList config.port.toNat
  | .maxChunkSize => text?.elim (config.maxChunkSize = 1420) fun s =>
    Decimal.StandsFor s.toList config.maxChunkSize.toNat
  | .compression => text?.elim (config.compression = .none) fun s =>
    s.toList.map Char.toLower = config.compression.name.toList
  | .sourceHost => config.sourceHost = text?

/-- A text leaves no choice where it has one meaning at most, and neither does a default. -/
theorem eq_of_elim {α : Type} {d a b : α} {P : String → α → Prop} {text? : Option String}
    (hP : ∀ {s x y}, P s x → P s y → x = y) (ha : text?.elim (a = d) fun s => P s a)
    (hb : text?.elim (b = d) fun s => P s b) : a = b := by
  cases text? with
  | none => exact Eq.trans ha (Eq.symm hb)
  | some s => exact hP ha hb

/-- The texts of all variables leave no choice. -/
theorem eq_of_shows {config config' : Config} {text? : Variable → Option String}
    (h : ∀ v, config.Shows (text? v) v) (h' : ∀ v, config'.Shows (text? v) v) :
    config = config' := by
  have hhost : config.host = config'.host := (h .host).trans (h' .host).symm
  have hport : config.port = config'.port :=
    eq_of_elim (P := fun s (n : UInt16) => Decimal.StandsFor s.toList n.toNat)
      (fun hx hy => UInt16.toNat_inj.1 (hx.unique hy)) (h .port) (h' .port)
  have hsize : config.maxChunkSize = config'.maxChunkSize :=
    eq_of_elim (P := fun s (n : UInt64) => Decimal.StandsFor s.toList n.toNat)
      (fun hx hy => UInt64.toNat_inj.1 (hx.unique hy)) (h .maxChunkSize) (h' .maxChunkSize)
  have hcompression : config.compression = config'.compression :=
    eq_of_elim (P := fun s (c : Compression) => s.toList.map Char.toLower = c.name.toList)
      (fun hx hy => Compression.toList_name_inj (hx.symm.trans hy)) (h .compression)
      (h' .compression)
  have hsource : config.sourceHost = config'.sourceHost :=
    (h .sourceHost).trans (h' .sourceHost).symm
  cases config
  cases config'
  rw [mk.injEq]
  exact ⟨hhost, hport, hsize, hcompression, hsource⟩

/-- What the options become with a text that is a value of the variable. -/
inductive Stores (config : Config) (s : String) : Variable → Config → Prop
  | host : Stores config s .host { config with host := s }
  | port {n : Nat} (hn : n ≤ 65535) (h : Decimal.StandsFor s.toList n) :
    Stores config s .port { config with port := UInt16.ofNat n }
  | maxChunkSize {n : Nat} (hn : n ≤ 0xffffffffffffffff) (h : Decimal.StandsFor s.toList n) :
    Stores config s .maxChunkSize { config with maxChunkSize := UInt64.ofNat n }
  | compression {c : Compression} (h : s.toList.map Char.toLower = c.name.toList) :
    Stores config s .compression { config with compression := c }
  | sourceHost : Stores config s .sourceHost { config with sourceHost := some s }

variable {config config' : Config} {v : Variable} {s : String}

/-- **One value.** -/
theorem set_eq_ok_iff (hs : s ≠ "") : config.set v s = .ok config' ↔ config.Stores s v config' := by
  cases v with
  | host =>
    constructor
    · rintro ⟨⟩
      exact .host
    · rintro ⟨⟩
      rfl
  | port =>
    rw [set]
    constructor
    · intro h
      split at h
      · rename_i n hread
        obtain ⟨hvalue, hn⟩ := Decimal.readNat_eq_ok_iff.1 hread
        cases h
        exact .port hn hvalue
      · cases h
    · rintro (- | ⟨hn, hvalue⟩)
      rw [Decimal.readNat_eq_ok_iff.2 ⟨hvalue, hn⟩]
  | maxChunkSize =>
    rw [set]
    constructor
    · intro h
      split at h
      · rename_i n hread
        obtain ⟨hvalue, hn⟩ := Decimal.readNat_eq_ok_iff.1 hread
        cases h
        exact .maxChunkSize hn hvalue
      · cases h
    · rintro (- | - | ⟨hn, hvalue⟩)
      rw [Decimal.readNat_eq_ok_iff.2 ⟨hvalue, hn⟩]
  | compression =>
    rw [set]
    constructor
    · intro h
      split at h
      · rename_i c hparse
        cases h
        exact .compression ((Compression.parse_eq_ok_iff hs).1 hparse)
      · cases h
    · rintro (- | - | - | hname)
      rw [(Compression.parse_eq_ok_iff hs).2 hname]
  | sourceHost =>
    constructor
    · rintro ⟨⟩
      exact .sourceHost
    · rintro ⟨⟩
      rfl

theorem accepts_iff_exists_stores (config : Config) :
    v.Accepts s ↔ ∃ config', config.Stores s v config' := by
  constructor
  · intro h
    cases v with
    | host => exact ⟨_, .host⟩
    | port =>
      obtain ⟨n, hn, hvalue⟩ := h
      exact ⟨_, .port hn hvalue⟩
    | maxChunkSize =>
      obtain ⟨n, hn, hvalue⟩ := h
      exact ⟨_, .maxChunkSize (Nat.le_of_lt_succ hn) hvalue⟩
    | compression =>
      obtain ⟨c, hname⟩ := h
      exact ⟨_, .compression hname⟩
    | sourceHost => exact ⟨_, .sourceHost⟩
  · rintro ⟨config', h⟩
    cases h with
    | host => trivial
    | port hn hvalue => exact ⟨_, hn, hvalue⟩
    | maxChunkSize hn hvalue => exact ⟨_, Nat.lt_succ_of_le hn, hvalue⟩
    | compression hname => exact ⟨_, hname⟩
    | sourceHost => trivial

theorem Stores.shows (h : config.Stores s v config') : config'.Shows (some s) v := by
  cases h with
  | host => rfl
  | @port n hn hvalue =>
    show Decimal.StandsFor s.toList (UInt16.ofNat n).toNat
    rwa [UInt16.toNat_ofNat_of_lt' (Nat.lt_succ_of_le hn)]
  | @maxChunkSize n hn hvalue =>
    show Decimal.StandsFor s.toList (UInt64.ofNat n).toNat
    rwa [UInt64.toNat_ofNat_of_lt' (Nat.lt_succ_of_le hn)]
  | compression hname => exact hname
  | sourceHost => rfl

/-- The options of the other variables stay. -/
theorem Stores.shows_iff_of_ne (h : config.Stores s v config') {u : Variable} (hu : u ≠ v)
    (text? : Option String) : config'.Shows text? u ↔ config.Shows text? u := by
  cases h <;> cases u <;> first | exact absurd rfl hu | exact Iff.rfl

/-! ### Settings -/

/-- The text of a setting without the blanks around it, if anything is left. -/
def Setting.value? (setting : Setting) : Option String :=
  (setting.text?.filter fun s => !Text.blank s).map Text.trim

/-- A value that is not Unicode, or a text that is neither blank nor a value of the variable. -/
inductive IsBad (v : Variable) : Setting → Prop
  | octets (bytes : List UInt8) : IsBad v (.octets bytes)
  | text {s : String} (hblank : Text.blank s = false) (h : ¬ v.Accepts (Text.trim s)) :
    IsBad v (.text s)

/-- The first of the variables with a bad value. -/
inductive FirstBad (environment : Variable → Setting) : List Variable → Variable → Prop
  | here {v : Variable} {vs : List Variable} (h : IsBad v (environment v)) :
    FirstBad environment (v :: vs) v
  | behind {u v : Variable} {vs : List Variable} (hu : ¬ IsBad u (environment u))
    (h : FirstBad environment vs v) : FirstBad environment (u :: vs) v

theorem FirstBad.isBad {environment : Variable → Setting} {vs : List Variable}
    (h : FirstBad environment vs v) : IsBad v (environment v) := by
  induction h with
  | here h => exact h
  | behind _ _ ih => exact ih

theorem FirstBad.unique {environment : Variable → Setting} {vs : List Variable} {u : Variable}
    (hu : FirstBad environment vs u) (hv : FirstBad environment vs v) : u = v := by
  induction hu with
  | here h =>
    cases hv with
    | here => rfl
    | behind hgood => exact absurd h hgood
  | behind hgood _ ih =>
    cases hv with
    | here h => exact absurd h hgood
    | behind _ h => exact ih h

/-! ### One variable -/

/-- An unset variable, or a text. -/
def Setting.ofText? : Option String → Setting
  | none => .unset
  | some s => .text s

theorem value?_ofText?_some_of_blank {s : String} (h : Text.blank s = true) :
    (Setting.ofText? (some s)).value? = none := by
  simp [Setting.value?, Setting.ofText?, Setting.text?, h]

theorem value?_ofText?_some {s : String} (h : Text.blank s = false) :
    (Setting.ofText? (some s)).value? = some (Text.trim s) := by
  simp [Setting.value?, Setting.ofText?, Setting.text?, h]

section Lookup

variable {σ : Type} {lookup : Lookup σ} {state state' : σ} {value? : Option String}

theorem readFrom_cons_of_blank (vs : List Variable) (config : Config)
    (hlookup : lookup v state = (some s, state')) (h : Text.blank s = true) :
    readFrom lookup (v :: vs) config state = readFrom lookup vs config state' := by
  have hfilter : (some s).filter (fun value => !Text.blank value) = none := by simp [h]
  simp only [readFrom, hlookup, hfilter]

theorem readFrom_cons_of_ok (vs : List Variable) (hlookup : lookup v state = (some s, state'))
    (h : Text.blank s = false) (hset : config.set v (Text.trim s) = .ok config') :
    readFrom lookup (v :: vs) config state = readFrom lookup vs config' state' := by
  have hfilter : (some s).filter (fun value => !Text.blank value) = some s := by simp [h]
  simp only [readFrom, hlookup, hfilter, hset]

theorem readFrom_cons_of_error (vs : List Variable) (hlookup : lookup v state = (some s, state'))
    (h : Text.blank s = false) {reason : ValueError}
    (hset : config.set v (Text.trim s) = .error reason) :
    readFrom lookup (v :: vs) config state = (.error (.invalid v s reason), state') := by
  have hfilter : (some s).filter (fun value => !Text.blank value) = some s := by simp [h]
  simp only [readFrom, hlookup, hfilter, hset]

/-- A value that is not bad is taken into the option of its variable. -/
theorem exists_readFrom_eq (vs : List Variable) (config : Config)
    (hlookup : lookup v state = (value?, state')) (hgood : ¬ IsBad v (.ofText? value?)) :
    ∃ config', readFrom lookup (v :: vs) config state = readFrom lookup vs config' state' ∧
      (config.Shows none v → config'.Shows (Setting.ofText? value?).value? v) ∧
      ∀ u ≠ v, ∀ text?, config'.Shows text? u ↔ config.Shows text? u := by
  cases value? with
  | none => exact ⟨config, by rw [readFrom, hlookup]; rfl, id, fun _ _ _ => Iff.rfl⟩
  | some s =>
    cases hblank : Text.blank s with
    | true =>
      refine ⟨config, readFrom_cons_of_blank vs config hlookup hblank, ?_, fun _ _ _ => Iff.rfl⟩
      rw [value?_ofText?_some_of_blank hblank]
      exact id
    | false =>
      have haccepts : v.Accepts (Text.trim s) :=
        Classical.byContradiction fun h => hgood (.text hblank h)
      obtain ⟨config', hstores⟩ := (accepts_iff_exists_stores config).1 haccepts
      have hset := (set_eq_ok_iff (Text.trim_ne_empty hblank)).2 hstores
      refine ⟨config', readFrom_cons_of_ok vs hlookup hblank hset, fun _ => ?_,
        fun u hu => hstores.shows_iff_of_ne hu⟩
      rw [value?_ofText?_some hblank]
      exact hstores.shows

/-- A bad value ends the reading. -/
theorem exists_readFrom_eq_error (vs : List Variable) (config : Config)
    (hlookup : lookup v state = (value?, state')) (hbad : IsBad v (.ofText? value?)) :
    ∃ s reason, value? = some s ∧
      readFrom lookup (v :: vs) config state = (.error (.invalid v s reason), state') := by
  cases value? with
  | none => cases hbad
  | some s =>
    obtain ⟨hblank, hrefused⟩ : Text.blank s = false ∧ ¬ v.Accepts (Text.trim s) := by
      cases hbad with
      | text hblank h => exact ⟨hblank, h⟩
    cases hset : config.set v (Text.trim s) with
    | ok config' =>
      have hstores := (set_eq_ok_iff (Text.trim_ne_empty hblank)).1 hset
      exact absurd ((accepts_iff_exists_stores config).2 ⟨config', hstores⟩) hrefused
    | error reason => exact ⟨s, reason, rfl, readFrom_cons_of_error vs hlookup hblank hset⟩

/-! ### What is asked for -/

/-- The variables that were asked for, with what was found: each once and in order, up to the first
bad value. -/
inductive AsksInOrder : List Variable → List (Variable × Option String) → Prop
  | done : AsksInOrder [] []
  | stop {v : Variable} {vs : List Variable} {value? : Option String}
    (hbad : IsBad v (.ofText? value?)) : AsksInOrder (v :: vs) [(v, value?)]
  | next {v : Variable} {vs : List Variable} {value? : Option String}
    {answers : List (Variable × Option String)} (hgood : ¬ IsBad v (.ofText? value?))
    (h : AsksInOrder vs answers) : AsksInOrder (v :: vs) ((v, value?) :: answers)

/-- What a lookup answers to questions, one after another, and the states before and after. -/
inductive Answers (lookup : Lookup σ) : σ → List (Variable × Option String) → σ → Prop
  | done {state : σ} : Answers lookup state [] state
  | ask {v : Variable} {state state' last : σ} {value? : Option String}
    {answers : List (Variable × Option String)} (h : lookup v state = (value?, state'))
    (hrest : Answers lookup state' answers last) :
    Answers lookup state ((v, value?) :: answers) last

/-- **Questions.** Whatever a lookup answers, it is asked for the variables in order, each once, and
for none behind a bad value. -/
theorem exists_answers (lookup : Lookup σ) (vs : List Variable) (config : Config) (state : σ) :
    ∃ answers, Answers lookup state answers (readFrom lookup vs config state).2 ∧
      AsksInOrder vs answers := by
  induction vs generalizing config state with
  | nil => exact ⟨[], .done, .done⟩
  | cons v vs ih =>
    obtain ⟨value?, state', hlookup⟩ : ∃ value? state', lookup v state = (value?, state') :=
      ⟨_, _, rfl⟩
    by_cases hbad : IsBad v (.ofText? value?)
    · obtain ⟨s, reason, -, heq⟩ := exists_readFrom_eq_error vs config hlookup hbad
      rw [heq]
      exact ⟨[(v, value?)], .ask hlookup .done, .stop hbad⟩
    · obtain ⟨config', heq, -⟩ := exists_readFrom_eq vs config hlookup hbad
      obtain ⟨answers, hanswers, horder⟩ := ih config' state'
      rw [heq]
      exact ⟨(v, value?) :: answers, .ask hlookup hanswers, .next hbad horder⟩

end Lookup

/-- Lookups with the same answers come to the same options or the same fault. -/
theorem readFrom_fst_congr {σ τ : Type} (lookup : Lookup σ) (lookup' : Lookup τ)
    (h : ∀ v state state', (lookup v state).1 = (lookup' v state').1) (vs : List Variable)
    (config : Config) (state : σ) (state' : τ) :
    (readFrom lookup vs config state).1 = (readFrom lookup' vs config state').1 := by
  induction vs generalizing config state state' with
  | nil => rfl
  | cons v vs ih =>
    have hvalue := h v state state'
    rw [readFrom, readFrom]
    generalize lookup v state = found at hvalue ⊢
    generalize lookup' v state' = found' at hvalue ⊢
    obtain ⟨value?, next⟩ := found
    obtain ⟨value?', next'⟩ := found'
    obtain rfl : value? = value?' := hvalue
    dsimp only
    split
    · exact ih config next next'
    · split
      · rfl
      · exact ih _ next next'

/-! ### Environments -/

section Environment

variable {environment : Variable → Setting} {vs : List Variable}

theorem lookupIn_ofText? {value? : Option String} (h : environment v = .ofText? value?)
    (passed : Option Variable) : lookupIn environment v passed = (value?, passed) := by
  cases value? <;> simp only [lookupIn, h, Setting.ofText?]

/-- The first variable that was passed over is never forgotten. -/
theorem Answers.eq_of_passed {answers : List (Variable × Option String)}
    {first last : Option Variable} (h : Answers (lookupIn environment) first answers last)
    (hfirst : first = some v) : last = some v := by
  induction h with
  | done => exact hfirst
  | @ask u state state' _ _ _ h _ ih =>
    refine ih ?_
    have hstate : (lookupIn environment u state).2 = state' := by rw [h]
    rw [← hstate, hfirst, lookupIn]
    split <;> rfl

theorem exists_readFrom_eq_passed (vs : List Variable) (config : Config) {bytes : List UInt8}
    (h : environment v = .octets bytes) :
    ∃ result, readFrom (lookupIn environment) (v :: vs) config none = (result, some v) := by
  have hpassed : readFrom (lookupIn environment) (v :: vs) config none =
      readFrom (lookupIn environment) vs config (some v) := by
    simp only [readFrom, lookupIn, h]
    rfl
  obtain ⟨answers, hanswers, -⟩ := exists_answers (lookupIn environment) vs config (some v)
  rw [hpassed]
  exact ⟨_, Prod.ext rfl (hanswers.eq_of_passed rfl)⟩

/-- What a reading of an environment comes to, and what was passed over first. -/
inductive Outcome (environment : Variable → Setting) (vs : List Variable) (config : Config) :
    Except ConfigError Config × Option Variable → Prop
  | notUnicode {v : Variable} {bytes : List UInt8} (hfirst : FirstBad environment vs v)
    (hv : environment v = .octets bytes) (result : Except ConfigError Config) :
    Outcome environment vs config (result, some v)
  | invalid {v : Variable} {s : String} (hfirst : FirstBad environment vs v)
    (hv : environment v = .text s) (reason : ValueError) :
    Outcome environment vs config (.error (.invalid v s reason), none)
  | options {config' : Config} (hgood : ∀ v ∈ vs, ¬ IsBad v (environment v))
    (hshows : ∀ v ∈ vs, config'.Shows (environment v).value? v)
    (hother : ∀ v ∉ vs, ∀ text?, config'.Shows text? v ↔ config.Shows text? v) :
    Outcome environment vs config (.ok config', none)

/-- A variable whose value is not bad changes the outcome by its own option. -/
theorem Outcome.cons {config config' : Config} {out : Except ConfigError Config × Option Variable}
    (h : Outcome environment vs config' out) (hv : v ∉ vs) (hgood : ¬ IsBad v (environment v))
    (hshows : config'.Shows (environment v).value? v)
    (hother : ∀ u ≠ v, ∀ text?, config'.Shows text? u ↔ config.Shows text? u) :
    Outcome environment (v :: vs) config out := by
  cases h with
  | notUnicode hfirst hu result => exact .notUnicode (.behind hgood hfirst) hu result
  | invalid hfirst hu reason => exact .invalid (.behind hgood hfirst) hu reason
  | options hrest hset hkept =>
    refine .options (List.forall_mem_cons.2 ⟨hgood, hrest⟩)
      (List.forall_mem_cons.2 ⟨(hkept v hv _).2 hshows, hset⟩) fun u hu text? => ?_
    obtain ⟨huv, hu⟩ := not_or.1 (List.mem_cons.not.1 hu)
    exact (hkept u hu text?).trans (hother u huv text?)

/-- **Reading on.** The first bad value decides, also if the reading went on behind it. -/
theorem outcome_readFrom {config : Config} (hvs : vs.Nodup)
    (hdefault : ∀ v ∈ vs, config.Shows none v) :
    Outcome environment vs config (readFrom (lookupIn environment) vs config none) := by
  induction vs generalizing config with
  | nil => exact .options nofun nofun fun _ _ _ => Iff.rfl
  | cons v vs ih =>
    obtain ⟨hv, hvs⟩ := List.nodup_cons.1 hvs
    -- a setting is a text or nothing, which the reading sees, or octets, which it does not see
    obtain ⟨value?, hsetting⟩ | ⟨bytes, hsetting⟩ :
        (∃ value?, environment v = .ofText? value?) ∨ ∃ bytes, environment v = .octets bytes := by
      cases environment v with
      | unset => exact .inl ⟨none, rfl⟩
      | text s => exact .inl ⟨some s, rfl⟩
      | octets bytes => exact .inr ⟨bytes, rfl⟩
    · have hlookup := lookupIn_ofText? hsetting none
      by_cases hbad : IsBad v (environment v)
      · obtain ⟨s, reason, rfl, heq⟩ :=
          exists_readFrom_eq_error vs config hlookup (hsetting ▸ hbad)
        rw [heq]
        exact .invalid (.here hbad) hsetting reason
      · obtain ⟨config', heq, hshows, hother⟩ :=
          exists_readFrom_eq vs config hlookup (hsetting ▸ hbad)
        rw [← hsetting] at hshows
        rw [heq]
        have hrest : ∀ u ∈ vs, config'.Shows none u := fun u hu =>
          (hother u (fun h => hv (h ▸ hu)) none).2 (hdefault u (List.mem_cons_of_mem v hu))
        exact (ih hvs hrest).cons hv hbad (hshows (hdefault v List.mem_cons_self)) hother
    · obtain ⟨result, heq⟩ := exists_readFrom_eq_passed vs config hsetting
      rw [heq]
      exact .notUnicode (.here (hsetting ▸ .octets bytes)) hsetting result

/-- The defaults are the options of an environment with nothing in it. -/
theorem shows_none (v : Variable) : Shows {} none v := by
  cases v <;> rfl

theorem outcome_readThrough (environment : Variable → Setting) :
    Outcome environment Variable.all {} (readThrough (lookupIn environment) none) :=
  outcome_readFrom (by decide) fun v _ => shows_none v

/-- The first bad value, with the fault that it is, or options without one. -/
theorem ofEnvironment_cases (environment : Variable → Setting) :
    (∃ v bytes, FirstBad environment Variable.all v ∧ environment v = .octets bytes ∧
      ofEnvironment environment = .error (.notUnicode v)) ∨
    (∃ v s reason, FirstBad environment Variable.all v ∧ environment v = .text s ∧
      ofEnvironment environment = .error (.invalid v s reason)) ∨
    ∃ config, (∀ v, ¬ IsBad v (environment v)) ∧ (∀ v, config.Shows (environment v).value? v) ∧
      ofEnvironment environment = .ok config := by
  have hall (v : Variable) : v ∈ Variable.all := by cases v <;> decide
  have h := outcome_readThrough environment
  rw [ofEnvironment]
  generalize readThrough (lookupIn environment) none = out at h ⊢
  cases h with
  | notUnicode hfirst hv result => exact .inl ⟨_, _, hfirst, hv, rfl⟩
  | invalid hfirst hv reason => exact .inr (.inl ⟨_, _, reason, hfirst, hv, rfl⟩)
  | options hgood hshows _ =>
    exact .inr (.inr ⟨_, fun v => hgood v (hall v), fun v => hshows v (hall v), rfl⟩)

theorem ofEnvironment_eq_notUnicode_iff : ofEnvironment environment = .error (.notUnicode v) ↔
    FirstBad environment Variable.all v ∧ ∃ bytes, environment v = .octets bytes := by
  obtain ⟨u, bytes, hfirst, hu, heq⟩ | ⟨u, s, reason, hfirst, hu, heq⟩ | ⟨config, hgood, -, heq⟩ :=
    ofEnvironment_cases environment
  · rw [heq]
    constructor
    · rintro ⟨⟩
      exact ⟨hfirst, bytes, hu⟩
    · rintro ⟨hv, -⟩
      rw [hfirst.unique hv]
  · rw [heq]
    refine iff_of_false nofun ?_
    rintro ⟨hv, bytes, hbytes⟩
    rw [← hfirst.unique hv, hu] at hbytes
    cases hbytes
  · rw [heq]
    exact iff_of_false nofun fun h => hgood v h.1.isBad

theorem exists_ofEnvironment_eq_invalid_iff :
    (∃ reason, ofEnvironment environment = .error (.invalid v s reason)) ↔
      FirstBad environment Variable.all v ∧ environment v = .text s := by
  obtain ⟨u, bytes, hfirst, hu, heq⟩ | ⟨u, t, reason, hfirst, hu, heq⟩ | ⟨config, hgood, -, heq⟩ :=
    ofEnvironment_cases environment
  · rw [heq]
    refine iff_of_false nofun ?_
    rintro ⟨hv, hs⟩
    rw [← hfirst.unique hv, hu] at hs
    cases hs
  · rw [heq]
    constructor
    · rintro ⟨_, ⟨⟩⟩
      exact ⟨hfirst, hu⟩
    · rintro ⟨hv, hs⟩
      obtain rfl := hfirst.unique hv
      rw [hu] at hs
      cases hs
      exact ⟨reason, rfl⟩
  · rw [heq]
    exact iff_of_false nofun fun h => hgood v h.1.isBad

theorem ofEnvironment_eq_ok_iff : ofEnvironment environment = .ok config ↔
    (∀ v, ¬ IsBad v (environment v)) ∧ ∀ v, config.Shows (environment v).value? v := by
  obtain ⟨u, bytes, hfirst, hu, heq⟩ | ⟨u, t, reason, hfirst, hu, heq⟩ |
    ⟨config', hgood, hshows, heq⟩ := ofEnvironment_cases environment
  · rw [heq]
    exact iff_of_false nofun fun h => h.1 u hfirst.isBad
  · rw [heq]
    exact iff_of_false nofun fun h => h.1 u hfirst.isBad
  · rw [heq]
    constructor
    · rintro ⟨⟩
      exact ⟨hgood, hshows⟩
    · rintro ⟨-, hconfig⟩
      rw [eq_of_shows hshows hconfig]

end Environment

/-! ### Given values -/

section Values

variable (values : Variable → Option String)

/-- Given values read as an environment in which every value is Unicode. -/
theorem ofLookup_result :
    (ofLookup values).result = ofEnvironment fun v => .ofText? (values v) := by
  have hsame := readFrom_fst_congr (fun v asked => (values v, asked ++ [v]))
    (lookupIn fun v => .ofText? (values v)) (fun v _ passed => by rw [lookupIn_ofText? rfl passed])
    Variable.all {} [] none
  have hresult : (ofLookup values).result =
      (readThrough (lookupIn fun v => .ofText? (values v)) none).1 := hsame
  have hout := outcome_readThrough fun v => .ofText? (values v)
  rw [hresult, ofEnvironment]
  generalize readThrough (lookupIn fun v => .ofText? (values v)) none = out at hout ⊢
  cases hout with
  | @notUnicode v bytes _ hv _ => cases htext : values v <;> simp [Setting.ofText?, htext] at hv
  | invalid => rfl
  | options => rfl

/-- A lookup that notes the questions notes them in order. -/
theorem Answers.eq_asked {first last : List Variable} {answers : List (Variable × Option String)}
    (h : Answers (fun v asked => (values v, asked ++ [v])) first answers last) :
    ∃ asked, last = first ++ asked ∧ answers = asked.map fun v => (v, values v) := by
  induction h with
  | done => exact ⟨[], (List.append_nil _).symm, rfl⟩
  | @ask v _ _ _ _ _ h _ ih =>
    obtain ⟨asked, rfl, rfl⟩ := ih
    cases h
    exact ⟨v :: asked, by simp, rfl⟩

theorem asksInOrder_ofLookup :
    AsksInOrder Variable.all ((ofLookup values).asked.map fun v => (v, values v)) := by
  obtain ⟨answers, hanswers, horder⟩ :=
    exists_answers (fun v asked => (values v, asked ++ [v])) Variable.all {} []
  obtain ⟨asked, hasked, rfl⟩ := hanswers.eq_asked values
  have hasked : (ofLookup values).asked = asked := by
    rw [ofLookup]
    exact hasked.trans (List.nil_append asked)
  rwa [hasked]

end Values

/-- **Options.** The five variables are asked for in order, and the first bad value is the fault of
the whole reading: as the variable alone if it is not Unicode, and with the value as it was found
otherwise. If there is none, the options are those that all texts say over the defaults. An
environment of texts reads as the texts alone, of which none is asked for twice, out of order or
behind a bad value, whatever a lookup answers. -/
theorem options_are_read_in_order :
    Variable.all.map Variable.name =
      ["GELF_HOST", "GELF_PORT", "GELF_MAX_CHUNK_SIZE", "GELF_COMPRESSION", "GELF_SOURCE_HOST"] ∧
    (∀ environment,
      (∀ v, ofEnvironment environment = .error (.notUnicode v) ↔
        FirstBad environment Variable.all v ∧ ∃ bytes, environment v = .octets bytes) ∧
      (∀ v s, (∃ reason, ofEnvironment environment = .error (.invalid v s reason)) ↔
        FirstBad environment Variable.all v ∧ environment v = .text s) ∧
      ∀ config, ofEnvironment environment = .ok config ↔
        (∀ v, ¬ IsBad v (environment v)) ∧ ∀ v, config.Shows (environment v).value? v) ∧
    (∀ values, (ofLookup values).result = ofEnvironment (fun v => .ofText? (values v)) ∧
      AsksInOrder Variable.all ((ofLookup values).asked.map fun v => (v, values v))) ∧
    ∀ (σ : Type) (lookup : Lookup σ) (state : σ), ∃ answers,
      Answers lookup state answers (readThrough lookup state).2 ∧
      AsksInOrder Variable.all answers :=
  ⟨rfl, fun _ => ⟨fun _ => ofEnvironment_eq_notUnicode_iff,
      fun _ _ => exists_ofEnvironment_eq_invalid_iff, fun _ => ofEnvironment_eq_ok_iff⟩,
    fun values => ⟨ofLookup_result values, asksInOrder_ofLookup values⟩,
    fun _ lookup state => exists_answers lookup Variable.all {} state⟩

/-- A reading that went on to a bad chunk size still ends in the port that it did not see. -/
example : ofEnvironment (fun
    | .port => .octets [0xff]
    | .maxChunkSize => .text " -1 "
    | _ => .unset) = .error (.notUnicode .port) := by
  decide

end Config

end Gelf
