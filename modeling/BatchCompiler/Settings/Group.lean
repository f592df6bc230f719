import BatchCompiler.Options.Registry
import BatchCompiler.Settings.Basic

/-!
# The settings as options

Every warning and every feature has a switch that enables it and one that disables it.
-/

namespace BatchCompiler.Settings

open Options

def warningEntries (s : Settings) : List GroupEntry :=
  Warning.all.map fun w =>
    { mark := "W", name := w.name, usage := w.description, enabled := some (s.warning w),
      disabled := some false }

def featureEntries (s : Settings) : List GroupEntry :=
  Feature.all.map fun f =>
    { mark := "F", name := f.name, usage := f.description, enabled := some (s.feature f),
      disabled := some false }

def optionGroups (s : Settings) : List Group :=
  [{ name := "Warning Flags", description := "Enable or disable specific warnings",
     kind := "warning", header := "Available Warnings:", entries := s.warningEntries },
   { name := "Feature Flags", description := "Enable or disable specific features",
     kind := "feature", header := "Available Features:", entries := s.featureEntries }]

end BatchCompiler.Settings
