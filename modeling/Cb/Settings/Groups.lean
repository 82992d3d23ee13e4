import Cb.CommandLine.Parse
import Cb.Settings.Basic

/-! Command-line switches for warnings and features. -/

namespace Cb.Settings

def warningEntry (s : Settings) (w : Warning) : GroupEntry := ⟨w.name, "W", w.description, s.warnings w⟩

def featureEntry (s : Settings) (f : Feature) : GroupEntry := ⟨f.name, "F", f.description, s.features f⟩

def warningGroup (s : Settings) : FlagGroup where
  name := "Warning Flags"
  description := "Enable or disable specific warnings"
  kind := "warning"
  header := "Available Warnings:"
  entries := Warning.all.map s.warningEntry

def featureGroup (s : Settings) : FlagGroup where
  name := "Feature Flags"
  description := "Enable or disable specific features"
  kind := "feature"
  header := "Available Features:"
  entries := Feature.all.map s.featureEntry

def flagSet (s : Settings) (options : List Flag) : FlagSet where
  flags := options ++ s.warningGroup.flags ++ s.featureGroup.flags
  groups := [s.warningGroup, s.featureGroup]

/-- What the two switches of an entry make of a setting: off wins over on. -/
def switched (set : FlagSet) (entry : GroupEntry) (before : Bool) : Bool :=
  !set.isOn entry.offName && (set.isOn entry.onName || before)

def applySwitches (s : Settings) (set : FlagSet) : Settings :=
  { s with
    warnings := fun w => switched set (s.warningEntry w) (s.warnings w)
    features := fun f => switched set (s.featureEntry f) (s.features f) }

end Cb.Settings
