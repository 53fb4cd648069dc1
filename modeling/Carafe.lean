import Carafe.Http.Delivery
import Carafe.Http.Progress
import Carafe.Http.Lengths
import Carafe.Http.Consumed
import Carafe.Http.Rewriting
import Carafe.Http.Canonical
import Carafe.Http.Readback
import Carafe.Http.Whole
import Carafe.Http.Cost
import Carafe.Net.Listener
import Carafe.Net.Write
import Carafe.Server.Matching
import Carafe.Server.Onion
import Carafe.Server.Relative
import Carafe.Server.Captures
import Carafe.Server.Deadlines
import Carafe.Server.Answers
import Carafe.Server.Persistence
import Carafe.Server.Accounting
import Carafe.Server.Limits
import Carafe.Server.Timeouts
import Carafe.Server.Shutdown
import Carafe.Server.Exchange
import Carafe.Server.Patience
import Carafe.Server.PatternGrammar
import Carafe.Server.Shadowing
import Carafe.Server.App
import Carafe.Server.Descriptors
import Carafe.Server.Hello
import Carafe.Net.Interrupts
import Carafe.Server.Wire
import Carafe.Server.Clients
