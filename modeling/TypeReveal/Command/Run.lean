import TypeReveal.Command.Arguments
import TypeReveal.Command.Basic
import TypeReveal.Settings.Toml

/-!
# The command as it runs

The readers that the command runs with.  They are chosen here and nowhere else: whatever runs the
command takes them from this module, and what is known of the command holds with others too.
-/

set_option autoImplicit false
namespace TypeReveal

/-- Settings are read from flat TOML documents. -/
instance Settings.flatReader : Settings.Reader := ⟨Settings.ofFlat?⟩

/-- Arguments are read as `reveal FILE` with options. -/
instance Request.argumentReader : Request.Reader := ⟨Request.ofArgs?⟩

end TypeReveal
