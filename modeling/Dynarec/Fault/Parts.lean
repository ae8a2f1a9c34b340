import Dynarec.Fault
import Dynarec.Text.Blank
import Dynarec.Text.Cut

/-!
# Parts of a reported text

A reported text ends in `code|name: sentence`, possibly behind some context. The parts are found again
from the text alone, so text that merely looks the same is taken apart in the same way.
-/

namespace Dynarec.Report

/-- The name: what stands between the first `|` and the colon behind it. A text without a `|` or without
a colon is its own name. -/
def namePart (text : String) : String :=
  let cs := text.toList
  match Text.cut? '|' cs with
  | some (_, behind) =>
      if cs.contains ':' then
        let name := match Text.cut? ':' behind with | some (n, _) => n | none => behind
        String.ofList (Text.trimChars name)
      else text
  | none => text

/-- The code: the last word in front of the first `|`. -/
def codePart (text : String) : String :=
  match Text.cut? '|' text.toList with
  | some (before, _) =>
      String.ofList ((Text.trimChars before).reverse.takeWhile fun c => c != ' ' && c != ':').reverse
  | none => ""

/-- The sentence: what stands behind the first colon that follows the first `|`. -/
def sentencePart (text : String) : String :=
  let cs := text.toList
  let rest := match Text.cut? '|' cs with | some (_, behind) => behind | none => cs
  match Text.cut? ':' rest with
  | some (_, sentence) => String.ofList (Text.trimChars sentence)
  | none => "DESC NOT SET"

def shownName : Option Report → String
  | none => "No Error"
  | some r => namePart r.text

end Dynarec.Report
