import NautilusCore.Rust.Basic
import NautilusCore.Text.Str
import NautilusCore.Float.Binary64
import NautilusCore.Float.Rounding
import NautilusCore.Float.Arith
import NautilusCore.Float.Text
import NautilusCore.Float.Decimal
import NautilusCore.Money.Basic
import NautilusCore.Money.Arith
import NautilusCore.Money.Order
import NautilusCore.Money.Decimal
import NautilusCore.Money.Parse
import NautilusCore.Money.New
import NautilusCore.Money.Invariant
import NautilusCore.Money.RoundTrip
import NautilusCore.Money.Zero
import NautilusCore.Money.Updates
import NautilusCore.Tardis.Parse
import NautilusCore.Tardis.BarSpec
import NautilusCore.Instruments.FuturesContract
