import LoxExpr.Folder
import LoxExpr.Shell

/-!
What the program is asked for, and what it does.
-/

set_option autoImplicit false
set_option relaxedAutoImplicit false

namespace LoxExpr

/-- Whether tokens are listed, and the names of scripts. -/
structure Options where
  listTokens : Bool := false
  scripts : List String := []
  deriving DecidableEq

/-- The prompt without a script, one script, or a word on the usage for more. -/
def Options.outcome (o : Options) (folder : Folder) (input : ByteArray) : Outcome :=
  match o.scripts with
  | [] => Shell.runPrompt o.listTokens input
  | [script] => Shell.runScript o.listTokens (folder.read script)
  | _ => Shell.showUsage

end LoxExpr
