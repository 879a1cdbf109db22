namespace GuidedDecoding

def bracketed (ns : List Nat) : String := "[" ++ ", ".intercalate (ns.map toString) ++ "]"

end GuidedDecoding
