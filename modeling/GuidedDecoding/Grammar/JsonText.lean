import GuidedDecoding.Grammar.Basic

namespace GuidedDecoding.Grammar

def jsonText : String :=
"
root ::= object | array
value ::= object | array | string | number | \"true\" | \"false\" | \"null\"
object ::= \"\x7b\" ws ( member ( ws \",\" ws member )* ws )? \"\x7d\"
member ::= string ws \":\" ws value
array ::= \"[\" ws ( value ( ws \",\" ws value )* ws )? \"]\"
string ::= \"\\\"\" char* \"\\\"\"
char ::= [^\"\\\\\\x00-\\x1f] | \"\\\\\" escape
escape ::= [\"\\\\/bfnrt] | \"u\" [A-Fa-f0-9]\x7b4\x7d
number ::= \"-\"? ( \"0\" | [1-9] [0-9]* ) ( \".\" [0-9]+ )? ( [eE] [+-]? [0-9]+ )?
ws ::= [ \\n\\t]*
"

def json : Except GrammarError Grammar := compile jsonText {}

end GuidedDecoding.Grammar
