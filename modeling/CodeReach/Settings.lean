import CodeReach.Failure
import CodeReach.Files
import CodeReach.Mnemonic
import CodeReach.Toml.Document

namespace CodeReach

structure CallSettings where
  preset : Preset
  extra : List String
deriving DecidableEq

structure ReportSettings where
  limit : Option Nat
deriving DecidableEq

/-- Which instructions count as calls and how many rows a report shows; for what is left out the
standard holds. -/
structure Settings where
  calls : Option CallSettings
  report : Option ReportSettings
deriving DecidableEq

inductive SettingsError where
  | unreadable (reason : String)
  | malformed
  | badCalls (f : Fault)
deriving DecidableEq

/-- `cause` is what the reader of settings says of a file that holds none. -/
def SettingsError.failure (e : SettingsError) (cause : String := "") : Failure :=
  match e with
  | unreadable reason => (Failure.ofMessage reason).inContext "Failed to read .fn-footprint.toml"
  | malformed => (Failure.ofMessage cause).inContext "Failed to parse .fn-footprint.toml"
  | badCalls f => (Failure.ofFault f).inContext "Invalid [calls] configuration"

namespace Settings

def path : String := ".fn-footprint.toml"

def standard : Settings := ⟨none, none⟩

def isEmptyCollection : Toml → Bool
  | .array items => items.isEmpty
  | .tables items => items.isEmpty
  | .table _ entries => entries.isEmpty
  | _ => false

/-- A preset is its name, or a table with the name as its one key over something empty. -/
def preset? : Toml → Option Preset
  | .string s => Preset.ofName? s
  | .table _ [(key, v)] => if isEmptyCollection v then Preset.ofName? key else none
  | _ => none

def text? : Toml → Option String
  | .string s => some s
  | _ => none

def texts? : Toml → Option (List String)
  | .array items => items.mapM text?
  | .tables items => items.mapM text?
  | _ => none

def count? : Toml → Option Nat
  | .integer (.ofNat n) => some n
  | _ => none

/-- A field that may be left out, but has to be right where it stands. -/
def optional {α : Type} (decode : Toml → Option α) : Option Toml → Option (Option α)
  | none => some none
  | some v => (decode v).map some

def callsOf? (preset extra : Option Toml) : Option CallSettings :=
  match optional preset? preset, optional texts? extra with
  | some p, some e => some ⟨p.getD .standard, e.getD []⟩
  | _, _ => none

/-- The fields by name from a table or in their order from an array. A date has no field that is
known here. -/
def calls? : Toml → Option CallSettings
  | .table _ entries => callsOf? (Toml.find? "preset" entries) (Toml.find? "extra" entries)
  | .array items => callsOf? items[0]? items[1]?
  | .tables items => callsOf? items[0]? items[1]?
  | .datetime _ => callsOf? none none
  | _ => none

def reportOf? (limit : Option Toml) : Option ReportSettings :=
  (optional count? limit).map fun n => ⟨n⟩

/-- An array has to give the limit. -/
def report? : Toml → Option ReportSettings
  | .table _ entries => reportOf? (Toml.find? "limit" entries)
  | .array (limit :: _) => reportOf? (some limit)
  | .tables (limit :: _) => reportOf? (some limit)
  | .datetime _ => reportOf? none
  | _ => none

def ofEntries? (entries : Toml.Entries) : Option Settings :=
  match optional calls? (Toml.find? "calls" entries),
      optional report? (Toml.find? "report" entries) with
  | some calls, some report => some ⟨calls, report⟩
  | _, _ => none

def mnemonics (s : Settings) : Except Fault MnemonicSet :=
  match s.calls with
  | some calls => (MnemonicSet.ofPreset calls.preset).extend calls.extra
  | none => .ok .standard

def limit (s : Settings) : Option Nat := s.report.bind ReportSettings.limit

/-- Settings whose mnemonics are all tokens. -/
def check (s : Settings) : Except SettingsError Settings :=
  match s.mnemonics with
  | .ok _ => .ok s
  | .error f => .error (.badCalls f)

def ofText (text : String) : Except SettingsError Settings :=
  match (Toml.parse? text).bind ofEntries? with
  | none => .error .malformed
  | some s => s.check

def read (files : Files) : Except SettingsError Settings :=
  match files.readText path with
  | .ok text => ofText text
  | .error .notFound => .ok standard
  | .error (.failed reason) => .error (.unreadable reason)

/-- Mnemonics given one by one come first, then the flag for tail calls, then the settings. -/
def chooseMnemonics (s : Settings) (given : List String) (tailCalls : Bool) :
    Except Fault MnemonicSet :=
  if !given.isEmpty then MnemonicSet.ofTexts given
  else if tailCalls then .ok (.ofPreset .tailCalls)
  else s.mnemonics

end Settings

end CodeReach
