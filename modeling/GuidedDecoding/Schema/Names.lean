import Std.Data.TreeSet

namespace GuidedDecoding.Names

def candidate (base : String) : Nat → String
  | 0 => base
  | n + 1 => base ++ "_" ++ toString (n + 1)

def search (taken : Std.TreeSet String) (base : String) (n : Nat) : Nat → String
  | 0 => candidate base n
  | tries + 1 =>
    let name := candidate base n
    if taken.contains name then search taken base (n + 1) tries else name

/-- A name that is not taken: of the candidates up to the number of taken names one is new. -/
def fresh (taken : Std.TreeSet String) (base : String) : String := search taken base 0 taken.size

def sanitize (text : List Char) : String :=
  String.ofList (text.map fun c => if c.isAlphanum then c else '_')

end GuidedDecoding.Names
