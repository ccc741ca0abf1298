import Caplets.Delimited
import Caplets.KeyedChain
import Caplets.Patterns
import Caplets.Strings
import Caplets.Structures
import Caplets.Codec
import Caplets.RoundTrip
import Caplets.Tokens
import Caplets.Bodies
import Caplets.Checks
import Caplets.Binding
import Caplets.Paths
import Caplets.Delegation
import Caplets.Requests
import Caplets.Transport
import Caplets.Issuance
import Caplets.Identities
import Caplets.EndToEnd
import Caplets.Closing
import Caplets.Attenuation
import Caplets.Authority
import Caplets.Framing
import Caplets.Bounds
import Caplets.Server
import Caplets.Attaching
import Caplets.Handover
import Caplets.Reuse
import Caplets.Canonical
import Caplets.Scan
import Caplets.Splitting
import Caplets.Bits
import Caplets.Knowledge
import Caplets.Objects
import Caplets.Holders
import Caplets.Protocol
import Caplets.Refinement
import Caplets.Acceptance
