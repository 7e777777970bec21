/-!
Notices: what a build reports besides its results.
-/

namespace DesignTokens

inductive Severity where
  | warning
  | error
deriving DecidableEq, Repr

inductive Notice where
  | malformedReference (text whole : String)
  | bareCategory (dotted : String)
  | groupOverToken (dotted : String)
  | tokenUnderGroup (dotted : String)
  | identifierTaken (category identifier numbered : String)
  | modeWithoutTrigger (mode : String)
  | unknownMode (mode : String)
  | flavorWithoutBase (flavor : String)
  | layerDirectoryMissing (path : String)
  | recipesWithoutFlavor (flavor : String)
  | layerWithoutSources (layer : String)
  | typedModulesSkipped (flavor layer : String)
  | layerFailed (layer reason : String)
  | cacheIgnored (reason : String)
  | layerNotCached (layer reason : String)
  | cacheNotWritten (reason : String)
  | buildFailed (layers : Nat)
deriving DecidableEq, Repr

namespace Notice

def severity : Notice → Severity
  | layerFailed .. => .error
  | _ => .warning

def message : Notice → String
  | malformedReference text whole =>
    "Malformed token reference `" ++ text ++ "` in `" ++ whole ++ "` left unchanged"
  | bareCategory dotted =>
    "Token `" ++ dotted ++ "` is a bare category and has no key below it; skipping"
  | groupOverToken dotted =>
    "Token group `" ++ dotted ++ "` collides with a token value; the group wins"
  | tokenUnderGroup dotted =>
    "Token `" ++ dotted ++ "` collides with a token group; the group wins"
  | identifierTaken category identifier numbered =>
    "Category `" ++ category ++ "` collides with another category on identifier `" ++ identifier ++
      "`; exporting it as `" ++ numbered ++ "`"
  | modeWithoutTrigger mode =>
    "Mode `" ++ mode ++ "` has neither a media query nor a manual selector; emitting it as base"
  | unknownMode mode => "Unknown mode `" ++ mode ++ "`; falling back to base mode"
  | flavorWithoutBase flavor => "Flavor `" ++ flavor ++ "` has no flavor.json; skipping it"
  | layerDirectoryMissing path => "Layer directory " ++ path ++ " not found"
  | recipesWithoutFlavor flavor =>
    "Default flavor `" ++ flavor ++ "` not found; recipes resolve against ingredients only"
  | layerWithoutSources layer => "Layer `" ++ layer ++ "` has no source files"
  | typedModulesSkipped flavor layer =>
    "Default flavor `" ++ flavor ++ "` not found; skipping typed modules for `" ++ layer ++ "`"
  | layerFailed layer reason => "Layer `" ++ layer ++ "` failed: " ++ reason
  | cacheIgnored reason => "Ignoring build cache: " ++ reason
  | layerNotCached layer reason => "Not caching `" ++ layer ++ "`: " ++ reason
  | cacheNotWritten reason => "Failed to write build cache: " ++ reason
  | buildFailed layers => "Build finished with " ++ layers.repr ++ " failed layer(s)"

end Notice

end DesignTokens
