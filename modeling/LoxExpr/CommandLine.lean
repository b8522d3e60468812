import LoxExpr.Options

/-!
The outer layer of the program, in front of its options: how a list of arguments is read.
-/

set_option autoImplicit false
set_option relaxedAutoImplicit false

namespace LoxExpr

/-- What a list of arguments comes to. -/
inductive Arguments where
  | options (o : Options)
  | help
  | refused

namespace Options

def tokensFlag : String := "--tokens"

def helpFlags : List String := ["-h", "--help"]

/-- The argument behind which no options are expected. -/
def endOfOptions : String := "--"

/-- An argument that can only be an option: a hyphen with something behind it. -/
def looksLikeOption (arg : String) : Bool := arg.startsWith "-" && arg != "-"

def addScript (o : Options) (name : String) : Options := { o with scripts := o.scripts ++ [name] }

/-- Reads arguments from left to right, up to the first that asks for help or is refused: the flag
for the second time, an unknown option, or an empty argument. -/
def read (o : Options) : List String → Arguments
  | [] => .options o
  | arg :: args =>
    if arg = endOfOptions then
      if args.contains "" then .refused else .options (args.foldl addScript o)
    else if arg = tokensFlag then
      if o.listTokens then .refused else read { o with listTokens := true } args
    else if helpFlags.contains arg then
      .help
    else if arg = "" || looksLikeOption arg then
      .refused
    else
      read (o.addScript arg) args

def ofArgs? (args : List String) : Option Options :=
  match read {} args with
  | .options o => some o
  | _ => none

end Options

end LoxExpr
