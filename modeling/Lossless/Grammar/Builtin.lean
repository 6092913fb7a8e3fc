import Lossless.Grammar.Python
import Lossless.Grammar.JavaScript

/-! The grammar that comes with each language. -/

namespace Lossless.Language

def grammar : Language → Grammar
  | .python => .python
  | .javaScript => .javaScript

end Lossless.Language
