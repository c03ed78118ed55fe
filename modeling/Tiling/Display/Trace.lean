import Tiling.Display
/-!
# Traces

One line of text for each request that changes the display, with all numbers in decimal.
Questions leave no line. Messages are cut into their lines.
-/

namespace Tiling

def windowText (window : Window) : String := Numeral.decimal window.toNat

def Request.line? : Request → Option String
  | .stackAbove window sibling => some ("above " ++ windowText window ++ " " ++ windowText sibling)
  | .stackBelow window sibling => some ("below " ++ windowText window ++ " " ++ windowText sibling)
  | .clientList windows => some ("clients [" ++ ", ".intercalate (windows.map windowText) ++ "]")
  | .configure window rect => some ("configure " ++ windowText window ++ " " ++ rect.render)
  | .map window => some ("map " ++ windowText window)
  | .unmap window => some ("unmap " ++ windowText window)
  | .watch window => some ("watch " ++ windowText window)
  | .focus none => some "focus none"
  | .focus (some window) => some ("focus " ++ windowText window)
  | .createFeedback rect color granted =>
    some ("feedback " ++ rect.render ++ " " ++ Numeral.decimal color.toNat ++ " " ++
      windowText (granted.getD 0))
  | .destroy window => some ("destroy " ++ windowText window)
  | .readClass _ => none
  | .readHints _ => none

/-- The lines of a text, each with its end; `part` is the current one, last character first. -/
def splitLines (part : List Char) : List Char → List String
  | [] => if part.isEmpty then [] else [String.ofList part.reverse]
  | c :: rest =>
    if c = '\n' then String.ofList (c :: part).reverse :: splitLines [] rest
    else splitLines (c :: part) rest

def messageLines (effects : List Effect) : List String :=
  splitLines [] (String.join ((effects.filterMap Effect.message?).map Message.text)).toList

def requestLines (effects : List Effect) : List String :=
  (effects.filterMap Effect.request?).filterMap Request.line?

end Tiling
