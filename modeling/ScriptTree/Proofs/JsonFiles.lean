import ScriptTree.Config

/-!
# JSON files and the configuration

A file is read as JSON if its bytes are UTF-8 and spell a value. One that is missing or malformed is
passed over, but bytes that are not UTF-8 and integers with too many digits get through as defects.
Where there is no such defect, each setting takes its value from the first of three **layers** that
has one: the environment, the file, the defaults.

## Main results

* `FileSystem.json_eq_error_iff`: when reading a file fails.
* `Config.load_layered`: when loading fails, and the layers otherwise.
-/

namespace ScriptTree

open List Option

namespace FileSystem

variable {fs : FileSystem} {p : Path} {e : Failure} {value : Json}

/-- A file **holds** a JSON value. -/
def HoldsJson (fs : FileSystem) (p : Path) (value : Json) : Prop :=
  ∃ bytes cs, fs.read p = .ok bytes ∧ Utf8.decode bytes = .ok cs ∧
    Json.read (Text.ofChars cs) = .ok value

/-- What makes reading a file as JSON a **defect**. -/
inductive JsonDefect (fs : FileSystem) (p : Path) : Defect → Prop
  | undecodable {bytes : Bytes} {fault : Utf8.Fault} (hread : fs.read p = .ok bytes)
      (hdecode : Utf8.decode bytes = .error fault) : JsonDefect fs p (.undecodable fault)
  | tooManyDigits {bytes : Bytes} {cs : List Char} (hread : fs.read p = .ok bytes)
      (hdecode : Utf8.decode bytes = .ok cs)
      (hjson : Json.read (Text.ofChars cs) = .error .tooManyDigits) :
      JsonDefect fs p (.numeral .tooManyDigits)

theorem json_eq_error_iff : fs.json p = .error e ↔ ∃ d, e = .defect d ∧ fs.JsonDefect p d := by
  unfold json
  constructor
  · intro h
    split at h
    · cases h
    · next bytes hread =>
      split at h
      · next fault hdecode => exact ⟨_, (Except.error.inj h).symm, .undecodable hread hdecode⟩
      · next cs hdecode =>
        split at h
        · cases h
        · cases h
        · next hjson => exact ⟨_, (Except.error.inj h).symm, .tooManyDigits hread hdecode hjson⟩
  · rintro ⟨d, rfl, hdefect⟩
    cases hdefect with
    | undecodable hread hdecode => simp only [hread, hdecode]
    | tooManyDigits hread hdecode hjson => simp only [hread, hdecode, hjson]

/-- A file that holds **no value** counts as `null`. -/
theorem holdsJson_or (h : fs.json p = .ok value) :
    fs.HoldsJson p value ∨ value = .null ∧ ∀ v, ¬ fs.HoldsJson p v := by
  unfold json at h
  split at h
  · next hread => exact .inr ⟨(Except.ok.inj h).symm, by simp [HoldsJson, hread]⟩
  · next bytes hread =>
    split at h
    · cases h
    · next cs hdecode =>
      split at h
      · next v hjson => exact .inl ⟨bytes, cs, hread, hdecode, Except.ok.inj h ▸ hjson⟩
      · next hjson =>
        exact .inr ⟨(Except.ok.inj h).symm, by simp [HoldsJson, hread, hdecode, hjson]⟩
      · cases h

theorem HoldsJson.unique {v : Json} (h : fs.HoldsJson p value) (hv : fs.HoldsJson p v) :
    v = value := by
  obtain ⟨bytes, cs, hread, hdecode, hjson⟩ := h
  obtain ⟨bytes', cs', hread', hdecode', hjson'⟩ := hv
  simp_all

end FileSystem

theorem Json.text?_eq_some_iff {j : Json} {t : Text} : j.text? = some t ↔ j = .string t := by
  cases j <;> simp [text?]

theorem Json.field?_eq_some_iff {j v : Json} {name : Text} :
    j.field? name = some v ↔ ∃ fields, j = .object fields ∧ fields.lookup name = some v := by
  cases j <;> simp [field?, fields]

theorem Setting.inJson?_eq_some_iff {s : Setting} {j : Json} {t : Text} :
    s.inJson? j = some t ↔ ∃ fields inner, j = .object fields ∧
      fields.lookup s.sectionName = some (.object inner) ∧
      inner.lookup s.key = some (.string t) := by
  simp only [inJson?, bind_eq_some_iff, Json.text?_eq_some_iff, Json.field?_eq_some_iff]
  constructor
  · rintro ⟨_, ⟨_, ⟨fields, rfl, hsection⟩, inner, rfl, hkey⟩, rfl⟩
    exact ⟨fields, inner, rfl, hsection, hkey⟩
  · rintro ⟨fields, inner, rfl, hsection, hkey⟩
    exact ⟨_, ⟨_, ⟨fields, rfl, hsection⟩, inner, rfl, hkey⟩, rfl⟩

namespace Config

variable {fs : FileSystem} {environment : Environment} {root : Path} {s : Setting}

/-- The **environment** gives a setting a value: its variable is set, and not blank. -/
def Exported (environment : Environment) (s : Setting) (t : Text) : Prop :=
  environment.lookup s.variableName = some t ∧ ∃ c ∈ t, c.satisfies isSpace = false

/-- The **file** gives a setting a value: a string in its section. -/
def Written (fs : FileSystem) (root : Path) (s : Setting) (t : Text) : Prop :=
  ∃ fields inner, fs.HoldsJson (root.child fileName) (.object fields) ∧
    fields.lookup s.sectionName = some (.object inner) ∧ inner.lookup s.key = some (.string t)

theorem setVariable?_eq_some_iff {t : Text} :
    setVariable? environment s = some t ↔ Exported environment s t := by
  simp [setVariable?, Exported, Text.isAllSpace]

theorem inJson?_eq_some_iff {file : Json} {t : Text}
    (h : fs.json (root.child fileName) = .ok file) :
    s.inJson? file = some t ↔ Written fs root s t := by
  rw [Setting.inJson?_eq_some_iff]
  constructor
  · rintro ⟨fields, inner, rfl, hrest⟩
    obtain hfile | ⟨hnull, -⟩ := FileSystem.holdsJson_or h
    · exact ⟨fields, inner, hfile, hrest⟩
    · cases hnull
  · rintro ⟨fields, inner, hfields, hrest⟩
    obtain hfile | ⟨-, hnone⟩ := FileSystem.holdsJson_or h
    · exact ⟨fields, inner, hfields.unique hfile, hrest⟩
    · exact absurd hfields (hnone _)

/-- **The layers of a configuration.** Loading fails only on a file that is not UTF-8 or holds an
integer with too many digits. Otherwise there is a value for each setting and for nothing else: the
one that the environment gives, or else the one that the file gives, or else the default. -/
theorem load_layered (fs : FileSystem) (environment : Environment) (root : Path) :
    (∀ e, load fs environment root = .error e ↔
      ∃ d, e = .defect d ∧ fs.JsonDefect (root.child fileName) d) ∧
    ∀ config, load fs environment root = .ok config → config.map Prod.fst = Setting.all ∧
      ∀ s, ∃ value, config.get? s = some value ∧
        (∀ t, Exported environment s t → value = t) ∧
        ((∀ t, ¬ Exported environment s t) →
          (∀ t, Written fs root s t → value = t) ∧
          ((∀ t, ¬ Written fs root s t) → value = s.default)) := by
  unfold load
  cases hfile : fs.json (root.child fileName) with
  | error e =>
    refine ⟨fun e' ↦ ?_, fun config h ↦ by cases h⟩
    rw [← FileSystem.json_eq_error_iff, hfile]
    constructor <;> rintro ⟨⟩ <;> rfl
  | ok file =>
    refine ⟨fun e ↦ ?_, fun config h ↦ ?_⟩
    · rw [← FileSystem.json_eq_error_iff, hfile]
      exact iff_of_false nofun nofun
    · obtain rfl := Except.ok.inj h
      refine ⟨rfl, fun s ↦ ⟨valueOf environment file s, by cases s <;> rfl, ?_⟩⟩
      simp only [← setVariable?_eq_some_iff, ← inJson?_eq_some_iff hfile, valueOf]
      cases setVariable? environment s with
      | some t => simp
      | none => cases s.inJson? file <;> simp

/-- A configuration file whose only byte starts no character. -/
def garbled : FileSystem where
  entries := [([fileName], .file [0xff] false)]
  cwd := []

/-- Such a file is **not passed over**. -/
theorem load_garbled : load garbled [] ⟨.root, []⟩
    = .error (.defect (.undecodable ⟨0, 0xff, 1, .invalidStart⟩)) := by
  rfl

end Config

end ScriptTree
